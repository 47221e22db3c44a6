import NeuralC.Proofs.Graph.Histories
import NeuralC.Proofs.Simplify.Bypass
import NeuralC.Proofs.Simplify.Names
import NeuralC.Simplify

/-!
# NeuralC.Proofs.Simplify.FixedPoint

One run of the passes leaves nothing to do for another.  `Settled` says of a
graph that no pass finds anything in it: no layer of a kind that goes is left,
every clipping activation stands beside other readers of its operand, and all
names are distinct identifiers.

Each pass makes its part of this true, and no later pass undoes it.  Folding an
activation is the delicate one: it changes who reads what, but an activation
that was passed over before keeps its operand and the readers of that
(`Merged.standalone`).
-/

namespace NeuralC.Simplify

open NeuralC.Graph

/-- A graph in which no pass finds anything to do. -/
structure Settled (g : Graph) : Prop where
  identity : g.handlesWhere isIdentity = []
  dropout : g.handlesWhere isDropout = []
  padding : g.handlesWhere isPadding = []
  standalone : ∀ t ∈ g.handlesWhere isClipping, Standalone g t
  /-- Every layer is called by an identifier. -/
  named : ∀ h ∈ g.order, ∃ n, g.get? h = some n ∧ n.name ≠ "" ∧ identifier n.name = n.name
  distinct : (g.order.map g.nameOf).Nodup
  ordered : g.isTopological = true

/-! ## A run leaves a settled graph -/

/-- An activation in front of one that is folded still stands alone: its operand is not the
producer, which feeds nothing else, and so keeps its readers. -/
theorem Merged.standalone {g g' : Graph} {h p k : Handle} {n m : Node}
    {outer inner f : Activation} (hm : Merged g g' h p n m outer inner f) (hg : g.Linked)
    (hk : Standalone g k) (hbefore : g.Before k h) : Standalone g' k := by
  obtain ⟨a, q, b, ha, hpreds, hb, hlen⟩ := hk
  have hqk : g.Before q k := hg.forward ha (by simp [hpreds])
  have hkh : k ≠ h := fun he => before_irrefl hg.nodup h (he ▸ hbefore)
  have hqh : q ≠ h := fun he =>
    before_irrefl hg.nodup h (before_trans hg.nodup (he ▸ hqk) hbefore)
  have hqp : q ≠ p := by
    rintro rfl
    have hle := hm.succs_le
    rw [hm.get?_producer] at hb
    injection hb with hb
    subst hb
    omega
  have hnot : h ∉ b.succs := by
    intro hh
    have hread := (hg.mem_succs_iff hb hm.get?_activation).mp hh
    rw [hm.preds_eq, List.mem_singleton] at hread
    exact hqp hread
  obtain ⟨a', ha', _, hpreds', _⟩ := (hm.bypassed hg).kept hkh ha
  obtain ⟨b', hb', _, _, hsuccs'⟩ := (hm.bypassed hg).kept hqh hb
  refine ⟨a', q, b', ha', ?_, hb', ?_⟩
  · rw [hpreds', hpreds, substitute_of_not_mem (by simpa using hqh.symm)]
  · rw [hsuccs', substitute_of_not_mem hnot]
    exact hlen

/-- Of the activations, those in front of `rest` have been passed over. -/
def Passed (g : Graph) (rest : List Handle) : Prop :=
  ∃ kept, g.handlesWhere isClipping = kept ++ rest ∧ ∀ t ∈ kept, Standalone g t

/-- An activation that stands alone is passed over. -/
theorem Passed.alone {g : Graph} {t : Handle} {rest : List Handle} (hp : Passed g (t :: rest))
    (ht : Standalone g t) : Passed g rest := by
  obtain ⟨kept, hsplit, hkept⟩ := hp
  refine ⟨kept ++ [t], by rw [hsplit, List.append_assoc, List.singleton_append], ?_⟩
  rw [List.forall_mem_append, List.forall_mem_singleton]
  exact ⟨hkept, ht⟩

/-- Folding an activation brings none of those in front back. -/
theorem Passed.merge {g g' : Graph} {t p : Handle} {rest : List Handle} {n m : Node}
    {outer inner f : Activation} (hp : Passed g (t :: rest)) (hg : g.Linked)
    (hm : Merged g g' t p n m outer inner f) : Passed g' rest := by
  obtain ⟨kept, hsplit, hkept⟩ := hp
  have hnd : (kept ++ t :: rest).Nodup := hsplit ▸ hg.nodup.filter _
  have hnot : t ∉ kept := fun ht => List.disjoint_of_nodup_append hnd ht List.mem_cons_self
  have hbefore : ∀ k ∈ kept, g.Before k t := by
    intro k hk
    have hpair : [k, t].Sublist (kept ++ t :: rest) :=
      (List.singleton_sublist.mpr hk).append (List.singleton_sublist.mpr List.mem_cons_self)
    rw [← hsplit] at hpair
    exact hpair.trans List.filter_sublist
  refine ⟨kept, ?_, fun k hk => hm.standalone hg (hkept k hk) (hbefore k hk)⟩
  rw [(hm.bypassed hg).handlesWhere_eq hg steady_isClipping, hsplit,
    List.erase_append_right _ hnot, List.erase_cons_head]

/-- The activations that are left when folding is done stand alone. -/
theorem standalone_of_fuseActivation {count : Nat} {w w' : Workspace} (hg : w.graph.Linked)
    (hf : fuseActivation w = .ok count w') :
    (∃ hs, Shrinks w.graph w'.graph hs) ∧
      ∀ t ∈ w'.graph.handlesWhere isClipping, Standalone w'.graph t := by
  obtain ⟨-, hshrinks, kept, hsplit, hkept⟩ := fuseActivationAll_induction
    (P := fun rest g => g.Linked ∧ (∃ hs, Shrinks w.graph g hs) ∧ Passed g rest)
    (fun h ht => ⟨h.1, h.2.1, h.2.2.alone ht⟩)
    (fun h hm => by
      obtain ⟨hlinked, ⟨hs, hshrinks⟩, hpassed⟩ := h
      have hb := hm.bypassed hlinked
      exact ⟨hb.linked, ⟨_, hshrinks.trans (.cons hb (.nil _))⟩, hpassed.merge hlinked hm⟩)
    ⟨hg, ⟨[], .nil _⟩, [], rfl, by simp⟩ (fuseActivationAll_of_fuseActivation hf)
  rw [hsplit, List.append_nil]
  exact ⟨hshrinks, hkept⟩

section Renaming

variable {count : Nat} {w w' : Workspace} (hg : w.graph.Linked)
  (hr : renameLayers w = .ok count w')

include hg hr

/-- Renaming changes no kind. -/
theorem handlesWhere_renameLayers (p : LayerKind → Bool) :
    w'.graph.handlesWhere p = w.graph.handlesWhere p := by
  rw [handlesWhere, handlesWhere, (renameLayers_cases hr).1]
  refine List.filter_congr fun k _ => ?_
  rw [get?_renameLayers hg hr, Option.any_map]
  rfl

/-- Renaming keeps activations alone. -/
theorem standalone_renameLayers {k : Handle} (hk : Standalone w.graph k) :
    Standalone w'.graph k := by
  obtain ⟨n, p, m, hn, hpreds, hm, hlen⟩ := hk
  refine ⟨n.named (identifier n.name), p, m.named (identifier m.name), ?_, hpreds, ?_, hlen⟩
  · rw [get?_renameLayers hg hr, hn, Option.map_some]
  · rw [get?_renameLayers hg hr, hm, Option.map_some]

omit hg in
/-- Renaming leaves distinct identifiers. -/
theorem named_renameLayers :
    (∀ h ∈ w'.graph.order, ∃ n, w'.graph.get? h = some n ∧ n.name ≠ "" ∧
      identifier n.name = n.name) ∧ (w'.graph.order.map w'.graph.nameOf).Nodup := by
  obtain ⟨horder, hlayers, _, hnd⟩ := renameLayers_cases hr
  rw [horder]
  refine ⟨fun h hh => ?_, ?_⟩
  · obtain ⟨n, _, hempty, hn'⟩ := hlayers h hh
    exact ⟨_, hn', hempty, identifier_identifier n.name⟩
  · have hnames : w.graph.order.map w'.graph.nameOf =
        w.graph.order.map fun h => identifier (w.graph.nameOf h) := by
      refine List.map_congr_left fun h hh => ?_
      obtain ⟨n, hn, _, hn'⟩ := hlayers h hh
      rw [nameOf_of_get? hn, nameOf_of_get? hn', Node.name_named]
    rw [hnames]
    exact hnd

end Renaming

/-- The check of the order passes exactly on ordered graphs, and changes nothing. -/
theorem requireOrder_eq_ok {w w' : Workspace} :
    requireOrder w = .ok () w' ↔ w.graph.isTopological = true ∧ w' = w := by
  simp only [requireOrder, Work.bind_apply, Work.graph_apply]
  split
  · next hordered => simp [hordered, eq_comm]
  · next hordered => simp [hordered]

/-- The next pass of a run does to the graph what it does alone. -/
theorem executeAll_cons {p : Pass} {ps : List Pass} {w w' : Workspace}
    (he : executeAll (p :: ps) w = .ok () w') :
    ∃ changed v u, p.run w = .ok changed v ∧ u.graph = v.graph ∧ executeAll ps u = .ok () w' := by
  obtain ⟨_, u, hp, hps⟩ := Work.bind_eq_ok.mp he
  obtain ⟨_, _, hgraph, hp⟩ := Work.bind_eq_ok.mp hp
  injection hgraph with _ hgraph
  subst hgraph
  obtain ⟨changed, v, hrun, hp⟩ := Work.bind_eq_ok.mp hp
  obtain ⟨_, v', hordered, hnoted⟩ := Work.bind_eq_ok.mp hp
  obtain ⟨_, rfl⟩ := requireOrder_eq_ok.mp hordered
  injection hnoted with _ hnoted
  exact ⟨changed, v', u, hrun, by rw [← hnoted], hps⟩

/-- A run of all passes ends with a note of the edges. -/
theorem optimize_eq_ok {w w' : Workspace} :
    optimize w = .ok () w' ↔ ∃ v edges, executeAll passes w = .ok () v ∧
      v.graph.edgeNames = .ok edges ∧ w' = { v with
        session := v.session.note .debug s!"Optimized graph:\n{dotText edges}" } := by
  constructor
  · intro ho
    obtain ⟨_, v, hall, ho⟩ := Work.bind_eq_ok.mp ho
    obtain ⟨g, v', hg, ho⟩ := Work.bind_eq_ok.mp ho
    injection hg with hg hv
    subst hg hv
    obtain ⟨edges, v', hattempt, hnote⟩ := Work.bind_eq_ok.mp ho
    obtain ⟨hedges, rfl⟩ := Work.attempt_eq_ok.mp hattempt
    injection hnote with _ hnote
    exact ⟨_, edges, hall, hedges, hnote.symm⟩
  · rintro ⟨v, edges, hall, hedges, rfl⟩
    exact Work.bind_eq_ok.mpr ⟨(), v, hall, Work.bind_eq_ok.mpr ⟨v.graph, v, rfl,
      Work.bind_eq_ok.mpr ⟨edges, v, Work.attempt_eq_ok.mpr ⟨hedges, rfl⟩, rfl⟩⟩⟩

/-- Simplification ends with the graph that its passes leave. -/
theorem graph_of_optimize {w w' : Workspace} (ho : optimize w = .ok () w') :
    ∃ v, executeAll passes w = .ok () v ∧ w'.graph = v.graph := by
  obtain ⟨v, _, hall, _, rfl⟩ := optimize_eq_ok.mp ho
  exact ⟨v, hall, rfl⟩

/-- One run leaves nothing to do. -/
theorem settled_of_optimize {w w' : Workspace} (hg : w.graph.Linked)
    (ho : optimize w = .ok () w') : Settled w'.graph := by
  obtain ⟨v, hall, hgraph⟩ := graph_of_optimize ho
  rw [hgraph]
  obtain ⟨_, v₁, u₁, h₁, hu₁, hall⟩ := executeAll_cons hall
  obtain ⟨_, v₂, u₂, h₂, hu₂, hall⟩ := executeAll_cons hall
  obtain ⟨_, v₃, u₃, h₃, hu₃, hall⟩ := executeAll_cons hall
  obtain ⟨_, v₄, u₄, h₄, hu₄, hall⟩ := executeAll_cons hall
  obtain ⟨_, v₅, u₅, h₅, hu₅, hall⟩ := executeAll_cons hall
  injection hall with _ hall
  subst hall
  -- Each of the first four passes takes layers out, so what is gone stays away.
  have hs₁ := shrinks_of_removeWhere hg h₁
  rw [← hu₁] at hs₁
  have hg₁ := hs₁.linked hg
  have hs₂ := shrinks_of_removeWhere hg₁ h₂
  rw [← hu₂] at hs₂
  have hg₂ := hs₂.linked hg₁
  have hs₃ := shrinks_of_fusePadding hg₂ h₃
  rw [← hu₃] at hs₃
  have hg₃ := hs₃.linked hg₂
  obtain ⟨⟨hs, hs₄⟩, halone⟩ := standalone_of_fuseActivation hg₃ h₄
  rw [← hu₄] at hs₄ halone
  have hg₄ := hs₄.linked hg₃
  obtain ⟨hnamed, hdistinct⟩ := named_renameLayers h₅
  have hwhere := handlesWhere_renameLayers hg₄ h₅
  rw [hu₅]
  refine ⟨?_, ?_, ?_, ?_, hnamed, hdistinct, (linked_renameLayers hg₄ h₅).isTopological⟩
  · rw [hwhere]
    exact (hs₂.trans (hs₃.trans hs₄)).handlesWhere_eq_nil_of_eq_nil hg₁ steady_isIdentity
      (hs₁.handlesWhere_eq_nil hg steady_isIdentity)
  · rw [hwhere]
    exact (hs₃.trans hs₄).handlesWhere_eq_nil_of_eq_nil hg₂ steady_isDropout
      (hs₂.handlesWhere_eq_nil hg₁ steady_isDropout)
  · rw [hwhere]
    exact hs₄.handlesWhere_eq_nil_of_eq_nil hg₃ steady_isPadding
      (hs₃.handlesWhere_eq_nil hg₂ steady_isPadding)
  · rw [hwhere]
    exact fun t ht => standalone_renameLayers hg₄ h₅ (halone t ht)

/-! ## A settled graph stays as it is -/

section Again

variable {w : Workspace}

/-- Without layers of its kind a removal does nothing. -/
theorem removeWhere_of_eq_nil {p : LayerKind → Bool}
    (hall : ∀ h ∈ w.graph.order, ∃ n, w.graph.get? h = some n)
    (hnil : w.graph.handlesWhere p = []) : removeWhere p w = .ok 0 w := by
  simp only [removeWhere, Work.bind_apply, handlesWhere_apply hall, hnil]
  rfl

theorem fusePadding_of_eq_nil (hall : ∀ h ∈ w.graph.order, ∃ n, w.graph.get? h = some n)
    (hnil : w.graph.handlesWhere isPadding = []) : fusePadding w = .ok 0 w := by
  simp only [fusePadding, Work.bind_apply, handlesWhere_apply hall, hnil]
  rfl

/-- An activation that stands alone is passed over with a note. -/
theorem fuseActivationAt_of_standalone {h : Handle} {n : Node} (hn : w.graph.get? h = some n)
    (hk : isClipping n.layer.kind = true) (halone : Standalone w.graph h) :
    ∃ v, fuseActivationAt h w = .ok 0 v ∧ v.graph = w.graph ∧
      v.session.stats = w.session.stats := by
  obtain ⟨n', p, m, hn', hpreds, hm, hlen⟩ := halone
  rw [hn] at hn'
  injection hn' with hn'
  subst hn'
  cases hkind : n.layer.kind with
  | activation a =>
      simp only [fuseActivationAt, Work.bind_apply, Work.graph_apply, node_eq_ok.mpr hn,
        node_eq_ok.mpr hm, Work.attempt_ok, Work.pure_apply, hkind, hpreds, if_pos hlen]
      exact ⟨_, rfl, rfl, rfl⟩
  | _ =>
      rw [hkind] at hk
      contradiction

/-- Activations that stand alone are left, and nothing is counted. -/
theorem fuseActivationAll_of_standalone {ts : List Handle}
    (hts : ∀ t ∈ ts, t ∈ w.graph.handlesWhere isClipping ∧ Standalone w.graph t) :
    ∃ v, fuseActivationAll ts w = .ok 0 v ∧ v.graph = w.graph ∧
      v.session.stats = w.session.stats := by
  induction ts generalizing w with
  | nil => exact ⟨w, rfl, rfl, rfl⟩
  | cons t ts ih =>
      obtain ⟨⟨hmem, halone⟩, hts⟩ := List.forall_mem_cons.mp hts
      obtain ⟨_, n, hn, hk⟩ := mem_handlesWhere.mp hmem
      obtain ⟨u, hone, hu, hstats⟩ := fuseActivationAt_of_standalone hn hk halone
      rw [← hu] at hts
      obtain ⟨v, hall, hv, hstats'⟩ := ih hts
      refine ⟨v, ?_, hv.trans hu, hstats'.trans hstats⟩
      exact Work.bind_eq_ok.mpr ⟨0, u, hone, Work.bind_eq_ok.mpr ⟨0, v, hall, rfl⟩⟩

/-- Distinct identifiers are not changed. -/
theorem renameLayers_of_named
    (hnamed : ∀ h ∈ w.graph.order, ∃ n, w.graph.get? h = some n ∧ n.name ≠ "" ∧
      identifier n.name = n.name)
    (hdistinct : (w.graph.order.map w.graph.nameOf).Nodup) : renameLayers w = .ok 0 w := by
  have hself : ∀ h ∈ w.graph.order, identifier (w.graph.nameOf h) = w.graph.nameOf h := by
    intro h hh
    obtain ⟨n, hn, _, hid⟩ := hnamed h hh
    rw [nameOf_of_get? hn, hid]
  have hnone : newNames w.graph [] w.graph.order = .ok [] := by
    refine newNames_eq_ok.mpr ⟨fun h hh => ?_, ?_, ?_⟩
    · obtain ⟨n, hn, hempty, hid⟩ := hnamed h hh
      exact ⟨n, hn, by rwa [hid], List.not_mem_nil⟩
    · rw [List.map_congr_left hself]
      exact hdistinct
    · refine (List.filterMap_eq_nil_iff.mpr fun h hh => ?_).symm
      rw [newName?, if_pos (hself h hh)]
  simp only [renameLayers, Work.bind_apply, Work.graph_apply, hnone, Work.attempt_ok,
    Work.pure_apply]
  rfl

namespace Settled

/-- No pass changes a settled graph, or counts a change. -/
theorem run (hs : Settled w.graph) {p : Pass} (hp : p ∈ passes) :
    ∃ v, p.run w = .ok 0 v ∧ v.graph = w.graph ∧ v.session.stats = w.session.stats := by
  have hall : ∀ h ∈ w.graph.order, ∃ n, w.graph.get? h = some n := fun h hh => by
    obtain ⟨n, hn, _⟩ := hs.named h hh
    exact ⟨n, hn⟩
  simp only [passes, List.mem_cons, List.not_mem_nil, or_false] at hp
  rcases hp with rfl | rfl | rfl | rfl | rfl
  · exact ⟨w, removeWhere_of_eq_nil hall hs.identity, rfl, rfl⟩
  · exact ⟨w, removeWhere_of_eq_nil hall hs.dropout, rfl, rfl⟩
  · exact ⟨w, fusePadding_of_eq_nil hall hs.padding, rfl, rfl⟩
  · obtain ⟨v, hv, hrest⟩ := fuseActivationAll_of_standalone (w := w) fun t ht =>
      ⟨ht, hs.standalone t ht⟩
    exact ⟨v, Work.bind_eq_ok.mpr ⟨_, w, handlesWhere_apply hall _, hv⟩, hrest⟩
  · exact ⟨w, renameLayers_of_named hs.named hs.distinct, rfl, rfl⟩

/-- On a settled graph all passes run through and count no change. -/
theorem executeAll {ps : List Pass} (hs : Settled w.graph) (hps : ∀ p ∈ ps, p ∈ passes) :
    ∃ v, executeAll ps w = .ok () v ∧ v.graph = w.graph ∧
      v.session.stats = ps.foldl (fun s p => s.recordPass p.name 0) w.session.stats := by
  induction ps generalizing w with
  | nil => exact ⟨w, rfl, rfl, rfl⟩
  | cons p ps ih =>
      obtain ⟨hp, hps⟩ := List.forall_mem_cons.mp hps
      obtain ⟨u, hrun, hu, hstats⟩ := hs.run hp
      obtain ⟨u', hexecute, hu', hstats'⟩ : ∃ u', p.execute w = .ok () u' ∧
          u'.graph = w.graph ∧ u'.session.stats = w.session.stats.recordPass p.name 0 := by
        have hordered : requireOrder u = .ok () u := requireOrder_eq_ok.mpr ⟨hu ▸ hs.ordered, rfl⟩
        simp only [Pass.execute, Work.bind_apply, Work.graph_apply, hrun, hordered]
        exact ⟨_, rfl, hu, by rw [← hstats]; rfl⟩
      obtain ⟨v, hall, hv, hcounts⟩ := ih (hu' ▸ hs) hps
      refine ⟨v, Work.bind_eq_ok.mpr ⟨(), u', hexecute, hall⟩, hv.trans hu', ?_⟩
      rw [hcounts, hstats', List.foldl_cons]

end Settled

end Again

/-- After one run of all passes, another runs through, leaves the graph as it is, and counts
no change for any pass. -/
theorem optimize_again {w w' : Workspace} (hr : Reachable w.graph)
    (ho : optimize w = .ok () w') :
    (∃ w'', optimize w' = .ok () w'' ∧ w''.graph = w'.graph ∧
      w''.session.stats = passes.foldl (fun s p => s.recordPass p.name 0) w'.session.stats) ∧
    ∀ p ∈ passes, ∀ u, u.graph = w'.graph → ∃ v, p.run u = .ok 0 v ∧ v.graph = w'.graph := by
  have hs := settled_of_optimize hr.linked ho
  constructor
  · obtain ⟨v, hall, hv, hstats⟩ := hs.executeAll fun _ hp => hp
    obtain ⟨_, edges, _, hedges, rfl⟩ := optimize_eq_ok.mp ho
    rw [← hv] at hedges
    exact ⟨_, optimize_eq_ok.mpr ⟨v, edges, hall, hedges, rfl⟩, hv, hstats⟩
  · intro p hp u hu
    rw [← hu] at hs
    obtain ⟨v, hrun, hv, _⟩ := hs.run hp
    exact ⟨v, hrun, hv.trans hu⟩

/-- Calls that build an activation whose operand gets a second reader only when a dropout
goes, behind one that is folded. -/
def settledLate : List Edit := [
  .addInput (.source "x" [1, 2, 1]),
  .insert ⟨"i", [[1, 2, 1]], [[1, 2, 1]], .float32, .identity⟩ [0] [],
  .insert ⟨"pad", [[1, 2, 1]], [[1, 4, 1]], .float32, .zeroPadding1D [(1, 1)]⟩ [1] [],
  .insert ⟨"conv/1", [[1, 4, 1]], [[1, 2, 1]], .float32, .conv1D {
    filters := 1, kernelSize := [3], strides := [1], groups := 1, padding := [],
    activation := .linear, kernel := ⟨[1, 3, 1], .f32 [1, 1, 1]⟩, bias := none }⟩ [2] [],
  .insert ⟨"relu", [[1, 2, 1]], [[1, 2, 1]], .float32, .activation .relu⟩ [3] [],
  .insert ⟨"drop", [[1, 2, 1]], [[1, 2, 1]], .float32, .dropout 0.5⟩ [4] [],
  .insert ⟨"relu6", [[1, 2, 1]], [[1, 2, 1]], .float32, .activation .relu6⟩ [5] [],
  .insert ⟨"s", [[1, 2, 1], [1, 2, 1]], [[1, 2, 1]], .float32, .add .linear⟩ [4, 6] []]

/-- A first run has work for every pass; a second finds none. -/
theorem optimize_settledLate :
    let w := history {} settledLate
    Reachable w.graph ∧ ∃ w' w'', optimize w = .ok () w' ∧ w'.graph.order = [0, 3, 6, 7] ∧
      w'.session.stats.passChanges.map Prod.snd = [1, 1, 1, 1, 1] ∧
      optimize w' = .ok () w'' ∧ w''.graph = w'.graph ∧
      w''.session.stats.passChanges.map Prod.snd = [1, 1, 1, 1, 1] := by
  intro w
  have hr : Reachable w.graph := reachable_history {} settledLate
  have hrun : Work.leaves (fun _ w' => decide (w'.graph.order = [0, 3, 6, 7] ∧
      w'.session.stats.passChanges.map Prod.snd = [1, 1, 1, 1, 1] ∧
      (passes.foldl (fun s p => s.recordPass p.name 0) w'.session.stats).passChanges.map
        Prod.snd = [1, 1, 1, 1, 1])) (optimize w) = true := by
    decide +kernel
  obtain ⟨_, w', ho, hleft⟩ := Work.exists_of_leaves hrun
  obtain ⟨horder, hchanges, hchanges'⟩ := of_decide_eq_true hleft
  obtain ⟨⟨w'', hagain, hgraph, hstats⟩, _⟩ := optimize_again hr ho
  exact ⟨hr, w', w'', ho, horder, hchanges, hagain, hgraph, hstats ▸ hchanges'⟩

end NeuralC.Simplify
