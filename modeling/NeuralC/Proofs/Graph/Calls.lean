import NeuralC.Edit
import NeuralC.Proofs.Graph.Edits

/-!
# NeuralC.Proofs.Graph.Calls

What a change of the graph at work does.  A call visits the neighbours of its node one
after another and would stop at one that is missing, with the graph half changed.
Where every edge leads to a node (`Linked`) none is, so a call makes the graph that
`Edit.apply` gives or, if it is refused, leaves everything as it was
(`Edit.call_apply`).  A deletion that succeeds has made that graph in any case
(`Work.graph_of_delete`).
-/

namespace NeuralC

namespace Graph

/-- Changing a node in place takes none away and adds none. -/
theorem contains_modify (g : Graph) (h k : Handle) (f : Node → Node) :
    (g.modify h f).contains k = g.contains k := by
  rw [contains, contains, get?_modify]
  split <;> simp

theorem contains_foldl_modify (f : Node → Node) (hs : List Handle) (g : Graph) (k : Handle) :
    (hs.foldl (fun g h => g.modify h f) g).contains k = g.contains k := by
  rw [contains, contains, get?_foldl_modify, Option.isSome_map]

/-- Nodes stay when one is added. -/
theorem contains_allocate {g : Graph} {k : Handle} (hk : g.contains k = true) (n : Node)
    (place : Nat) : (g.allocate n place).contains k = true := by
  rw [contains, get?_allocate, if_neg (ne_fresh hk)]
  exact hk

/-- A node that was just put into the graph can still be changed in its slot. -/
theorem modify_allocate (g : Graph) (n : Node) (place : Nat) (f : Node → Node) :
    (g.allocate n place).modify g.fresh f = g.allocate (f n) place := by
  have hslots : (g.slots ++ [some n]).modify g.slots.length (Option.map f) =
      g.slots ++ [some (f n)] := by
    refine List.ext_getElem? fun i => ?_
    rw [List.getElem?_modify, List.getElem?_append, List.getElem?_append]
    grind
  rw [allocate, modify, fresh, hslots, allocate, fresh]

end Graph

namespace Work

/-! ## Nodes -/

/-- A lookup at work finds the node and changes nothing. -/
theorem node_eq_ok {h : Handle} {n : Node} {w w' : Workspace} :
    node h w = .ok n w' ↔ w.graph.get? h = some n ∧ w' = w := by
  rw [node, bind_apply, graph_apply]
  dsimp only
  rw [attempt_eq_ok, Graph.node_eq_ok]

/-- A node that is there is changed. -/
theorem modifyNode_apply {h : Handle} {w : Workspace} (hh : w.graph.contains h = true)
    (f : Node → Node) : modifyNode h f w = .ok () { w with graph := w.graph.modify h f } := by
  obtain ⟨n, hn⟩ := Graph.contains_iff.mp hh
  rw [modifyNode, bind_apply, node_eq_ok.mpr ⟨hn, rfl⟩]
  rfl

/-- A change in place that succeeds has made the change. -/
theorem modifyNode_eq_ok {h : Handle} {f : Node → Node} {w w' : Workspace}
    (hm : modifyNode h f w = .ok () w') : w' = { w with graph := w.graph.modify h f } := by
  obtain ⟨n, v, hn, hset⟩ := bind_eq_ok.mp hm
  obtain ⟨_, rfl⟩ := node_eq_ok.mp hn
  injection hset with _ hset
  exact hset.symm

/-- Nodes that are there are changed one after another. -/
theorem modifyEach_apply (f : Node → Node) {hs : List Handle} {w : Workspace}
    (hhs : ∀ h ∈ hs, w.graph.contains h = true) :
    modifyEach f hs w =
      .ok () { w with graph := hs.foldl (fun g h => g.modify h f) w.graph } := by
  induction hs generalizing w with
  | nil => rfl
  | cons h hs ih =>
      obtain ⟨hh, hhs⟩ := List.forall_mem_cons.mp hhs
      rw [modifyEach, bind_apply, modifyNode_apply hh]
      refine ih fun k hk => ?_
      rw [Graph.contains_modify]
      exact hhs k hk

/-- The neighbours on one side and then those on the other are changed, if all are there. -/
theorem modifyEach_both (f f' : Node → Node) {preds succs : List Handle} {w : Workspace}
    (hlive : ∀ h ∈ preds ++ succs, w.graph.contains h = true) :
    let g := preds.foldl (fun g h => g.modify h f) w.graph
    modifyEach f preds w = .ok () { w with graph := g } ∧
      modifyEach f' succs { w with graph := g } =
        .ok () { w with graph := succs.foldl (fun g h => g.modify h f') g } := by
  obtain ⟨hpreds, hsuccs⟩ := List.forall_mem_append.mp hlive
  refine ⟨modifyEach_apply f hpreds, modifyEach_apply f' fun h hh => ?_⟩
  rw [Graph.contains_foldl_modify]
  exact hsuccs h hh

/-- Changes at several handles are made one after another. -/
theorem modifyEach_eq_ok {f : Node → Node} {hs : List Handle} {w w' : Workspace}
    (hm : modifyEach f hs w = .ok () w') :
    w' = { w with graph := hs.foldl (fun g h => g.modify h f) w.graph } := by
  induction hs generalizing w with
  | nil =>
      injection hm with _ hm
      exact hm.symm
  | cons h hs ih =>
      obtain ⟨_, v, hfirst, hm⟩ := bind_eq_ok.mp hm
      rw [ih hm, modifyNode_eq_ok hfirst]
      rfl

/-- A node that is there is taken out. -/
theorem take_apply {h : Handle} {n : Node} {w : Workspace} (hn : w.graph.get? h = some n) :
    take h w = .ok (some n) { w with graph := w.graph.vacate h } := by
  have hslot : w.graph.slots[h]? = some (some n) := Option.join_eq_some_iff.mp hn
  rw [take, bind_apply, graph_apply]
  dsimp only
  rw [bind_apply, hslot]
  rfl

/-- Taking a node out gives the node and leaves its slot empty. -/
theorem take_eq_some {h : Handle} {n : Node} {w w' : Workspace}
    (ht : take h w = .ok (some n) w') :
    w.graph.get? h = some n ∧ w' = { w with graph := w.graph.vacate h } := by
  obtain ⟨g, v, hg, hrest⟩ := bind_eq_ok.mp ht
  injection hg with hg hv
  subst hg hv
  obtain ⟨slot, v, hslot, hrest⟩ := bind_eq_ok.mp hrest
  obtain ⟨hslot, rfl⟩ := attempt_eq_ok.mp hslot
  cases slot with
  | none =>
      injection hrest with hnone
      cases hnone
  | some m =>
      injection hrest with hm hset
      cases hm
      exact ⟨Option.join_eq_some_iff.mpr (present_eq_ok.mp hslot), hset.symm⟩

/-! ## Changes -/

/-- What a deletion that succeeds has done. -/
theorem graph_of_delete {h : Handle} {w w' : Workspace} (hd : delete h w = .ok () w') :
    ∃ g, w.graph.delete h = .ok g ∧ w' = { w with graph := g } := by
  rw [delete, bind_apply, graph_apply] at hd
  dsimp only at hd
  cases hplace : w.graph.position? h with
  | none =>
      rw [hplace] at hd
      contradiction
  | some place =>
      rw [hplace] at hd
      cases place with
      | zero =>
          obtain ⟨_, _, _, hreport⟩ := bind_eq_ok.mp hd
          contradiction
      | succ place =>
          obtain ⟨taken, v, htake, hrest⟩ := bind_eq_ok.mp hd
          cases taken with
          | none => contradiction
          | some n =>
              obtain ⟨hn, rfl⟩ := take_eq_some htake
              obtain ⟨_, v, hpreds, hsuccs⟩ := bind_eq_ok.mp hrest
              refine ⟨_, ?_, by rw [modifyEach_eq_ok hsuccs, modifyEach_eq_ok hpreds]⟩
              simp only [Graph.delete, hplace, hn]
              rfl

/-- Adding an input at work leaves the graph that the function gives, or the old one. -/
theorem addInput_apply (layer : Layer) (w : Workspace) :
    addInput layer w = match w.graph.addInput layer with
      | .ok (g, h) => .ok h { w with graph := g }
      | .error d => .error (.reported d) w := by
  rw [addInput, bind_apply, graph_apply]
  dsimp only
  rw [bind_apply, check_apply, Graph.addInput]
  cases w.graph.inputPlace layer <;> rfl

/-- An insertion has looked its neighbours up before it begins. -/
theorem insert_apply (layer : Layer) (preds succs : List Handle) (w : Workspace) :
    insert layer preds succs w = match w.graph.insert layer preds succs with
      | .ok (g, h) => .ok h { w with graph := g }
      | .error d => .error (.reported d) w := by
  rw [insert, bind_apply, graph_apply]
  dsimp only
  rw [bind_apply, check_apply]
  cases hplace : w.graph.insertPlace layer preds succs with
  | error d => simp only [Graph.insert, hplace]
  | ok place =>
      have hlive : ∀ k ∈ preds ++ succs,
          (w.graph.allocate ⟨layer, none, preds, succs⟩ place).contains k = true := fun k hk =>
        Graph.contains_allocate ((Graph.insertPlace_eq_ok hplace).1 k hk) _ _
      obtain ⟨hpreds, hsuccs⟩ := modifyEach_both
        (w := ⟨w.graph.allocate ⟨layer, none, preds, succs⟩ place, w.session⟩)
        (fun n => { n with succs := n.succs ++ [w.graph.fresh] })
        (fun n => { n with preds := n.preds ++ [w.graph.fresh] }) hlive
      simp only [bind_apply, allocate, graph_apply, setGraph_apply, pure_apply, hpreds, hsuccs,
        Graph.insert, hplace]
      rfl

section Linked

variable {w : Workspace} (hg : w.graph.Linked)

include hg

/-- The neighbours of a node are still there when the node is taken out. -/
theorem contains_vacate {h k : Handle} {n : Node} (hn : w.graph.get? h = some n)
    (hk : k ∈ n.preds ++ n.succs) : (w.graph.vacate h).contains k = true := by
  have hkh : k ≠ h := by
    rintro rfl
    rcases List.mem_append.mp hk with hp | hs
    · exact hg.not_mem_preds hn hp
    · exact hg.not_mem_succs hn hs
  rw [Graph.contains, Graph.get?_vacate, if_neg hkh]
  rcases List.mem_append.mp hk with hp | hs
  · exact hg.pred_live hn hp
  · exact hg.succ_live hn hs

/-- Deleting at work leaves the graph that the function gives, or the old one. -/
theorem delete_apply (h : Handle) :
    delete h w = match w.graph.delete h with
      | .ok g => .ok () { w with graph := g }
      | .error d => .error (.reported d) w := by
  rw [delete, bind_apply, graph_apply]
  dsimp only
  cases hp : w.graph.position? h with
  | none => simp only [report_apply, Graph.delete, hp]
  | some place =>
      obtain ⟨n, hn⟩ := hg.exists_get? (Graph.position?_eq_some.mp hp).1
      have hlive : ∀ k ∈ n.preds ++ n.succs, (w.graph.vacate h).contains k = true :=
        fun k hk => contains_vacate hg hn hk
      cases place with
      | zero =>
          simp only [bind_apply, node_eq_ok.mpr ⟨hn, rfl⟩, report_apply, Graph.delete, hp, hn]
          rfl
      | succ place =>
          obtain ⟨hpreds, hsuccs⟩ := modifyEach_both (w := ⟨w.graph.vacate h, w.session⟩)
            (fun m => { m with succs := splice h n.succs m.succs })
            (fun m => { m with preds := splice h n.preds m.preds }) hlive
          simp only [bind_apply, take_apply hn, hpreds, Graph.delete, hp, hn]
          exact hsuccs

/-- Replacing at work leaves the graph that the function gives, or the old one. -/
theorem replace_apply (old : Handle) (layer : Layer) :
    replace old layer w = match w.graph.replace old layer with
      | .ok (g, h) => .ok h { w with graph := g }
      | .error d => .error (.reported d) w := by
  rw [replace, bind_apply, graph_apply]
  dsimp only
  cases hp : w.graph.position? old with
  | none => simp only [report_apply, Graph.replace, hp]
  | some place =>
      obtain ⟨n, hn⟩ := hg.exists_get? (Graph.position?_eq_some.mp hp).1
      by_cases hfirst : place = 0 ∧ !layer.isInput
      · simp only [if_pos hfirst, report_apply, Graph.replace, hp, hn]
      · have hfresh : (w.graph.vacate old).fresh = w.graph.fresh := Graph.fresh_vacate ..
        have hlive : ∀ k ∈ n.preds ++ n.succs,
            ((w.graph.vacate old).allocate { n with layer := layer } place).contains k = true :=
          fun k hk => Graph.contains_allocate (contains_vacate hg hn hk) _ _
        have hnew := modifyNode_apply (h := w.graph.fresh)
          (w := ⟨(w.graph.vacate old).allocate ⟨layer, none, n.preds, n.succs⟩ place, w.session⟩)
          (by simp [Graph.contains, Graph.get?_allocate, hfresh])
          fun m => { m with quant := n.quant }
        rw [← hfresh, Graph.modify_allocate, hfresh] at hnew
        obtain ⟨hpreds, hsuccs⟩ := modifyEach_both
          (w := ⟨(w.graph.vacate old).allocate { n with layer := layer } place, w.session⟩)
          (fun m => { m with succs := splice old [w.graph.fresh] m.succs })
          (fun m => { m with preds := splice old [w.graph.fresh] m.preds }) hlive
        simp only [if_neg hfirst, bind_apply, take_apply hn, allocate, graph_apply,
          setGraph_apply, pure_apply, hfresh, hnew, hpreds, hsuccs, Graph.replace, hp, hn]
        rfl

end Linked

end Work

/-! ## Calls -/

namespace Edit

/-- The graph after a call, with the handle that the call gives out. -/
def apply : Edit → Graph → Except Diagnostic (Graph × Option Handle)
  | addInput layer, g => (g.addInput layer).map fun (g, h) => (g, some h)
  | insert layer preds succs, g => (g.insert layer preds succs).map fun (g, h) => (g, some h)
  | delete h, g => (g.delete h).map fun g => (g, none)
  | replace old layer, g => (g.replace old layer).map fun (g, h) => (g, some h)

/-- A call makes the graph that its edit gives, or nothing is changed by it. -/
theorem call_apply (e : Edit) {w : Workspace} (hg : w.graph.Linked) :
    e.call w = match e.apply w.graph with
      | .ok (g, h) => .ok h { w with graph := g }
      | .error d => .error (.reported d) w := by
  cases e with
  | addInput layer =>
      rw [call, Work.bind_apply, Work.addInput_apply, apply]
      cases w.graph.addInput layer <;> rfl
  | insert layer preds succs =>
      rw [call, Work.bind_apply, Work.insert_apply, apply]
      cases w.graph.insert layer preds succs <;> rfl
  | delete h =>
      rw [call, Work.bind_apply, Work.delete_apply hg, apply]
      cases w.graph.delete h <;> rfl
  | replace old layer =>
      rw [call, Work.bind_apply, Work.replace_apply hg, apply]
      cases w.graph.replace old layer <;> rfl

/-- What a call that is not refused has done. -/
theorem call_eq_ok {e : Edit} {w w' : Workspace} {h : Option Handle} (hg : w.graph.Linked)
    (he : e.call w = .ok h w') :
    e.apply w.graph = .ok (w'.graph, h) ∧ w'.session = w.session := by
  rw [call_apply e hg] at he
  cases happly : e.apply w.graph with
  | error d => simp [happly] at he
  | ok p =>
      simp only [happly, EStateM.Result.ok.injEq] at he
      obtain ⟨rfl, rfl⟩ := he
      exact ⟨rfl, rfl⟩

/-- A call that is refused is reported and leaves everything as it was. -/
theorem call_eq_error {e : Edit} {w w' : Workspace} {f : Failure} (hg : w.graph.Linked)
    (he : e.call w = .error f w') : (∃ d, f = .reported d) ∧ w' = w := by
  rw [call_apply e hg] at he
  cases happly : e.apply w.graph with
  | error d =>
      simp only [happly, EStateM.Result.error.injEq] at he
      exact ⟨⟨d, he.1.symm⟩, he.2.symm⟩
  | ok p => simp [happly] at he

end Edit

end NeuralC
