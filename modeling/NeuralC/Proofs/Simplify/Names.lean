import Mathlib.Data.List.Nodup
import NeuralC.Proofs.Graph.WellFormed
import NeuralC.Proofs.Work
import NeuralC.Simplify.Names

/-!
# NeuralC.Proofs.Simplify.Names

What renaming does.  `identifier` leaves identifiers alone, and `newNames` gives
the names that change exactly when the identifiers of all layers are there and
differ (`newNames_eq_ok`).  The pass then leaves every layer with its identifier
and changes nothing else (`renameLayers_cases`).
-/

namespace NeuralC

def Node.named (name : String) (n : Node) : Node :=
  { n with layer := { n.layer with name := name } }

@[simp] theorem Node.named_name (n : Node) : n.named n.name = n := rfl

@[simp] theorem Node.name_named (name : String) (n : Node) : (n.named name).name = name := rfl

namespace Simplify

open NeuralC.Graph

/-! ## Identifiers -/

/-- An identifier is its own identifier. -/
theorem identifier_identifier (name : String) :
    identifier (identifier name) = identifier name := by
  have hall : ∀ c ∈ name.toList.filter isIdentifierChar, isIdentifierChar c = true :=
    fun c hc => (List.mem_filter.mp hc).2
  cases hcs : name.toList.filter isIdentifierChar with
  | nil => simp [identifier, hcs]
  | cons c cs =>
      rw [hcs] at hall
      have hself : (c :: cs).filter isIdentifierChar = c :: cs := List.filter_eq_self.mpr hall
      have hmark : isIdentifierChar '_' = true := by decide
      by_cases hd : c.isDigit = true
      · -- The mark in front is a character of an identifier and no digit.
        have hname : identifier name = String.ofList ('_' :: c :: cs) := by
          simp only [identifier, hcs, hd, if_true]
        have hfilter : ('_' :: c :: cs).filter isIdentifierChar = '_' :: c :: cs := by
          rw [List.filter_cons_of_pos hmark, hself]
        rw [hname, identifier, String.toList_ofList, hfilter]
        rfl
      · have hname : identifier name = String.ofList (c :: cs) := by
          simp only [identifier, hcs, hd, if_false, Bool.false_eq_true]
        rw [hname, identifier, String.toList_ofList, hself]
        exact if_neg hd

/-! ## New names -/

/-- The new name of a layer whose name is no identifier. -/
def newName? (g : Graph) (h : Handle) : Option (Handle × String) :=
  if identifier (g.nameOf h) = g.nameOf h then none else some (h, identifier (g.nameOf h))

/-- New names are found when every layer has an identifier that no other has. -/
theorem newNames_eq_ok {g : Graph} {taken : List String} {hs : List Handle}
    {renames : List (Handle × String)} :
    newNames g taken hs = .ok renames ↔
      (∀ h ∈ hs, ∃ n, g.get? h = some n ∧ identifier n.name ≠ "" ∧
        identifier n.name ∉ taken) ∧
      (hs.map fun h => identifier (g.nameOf h)).Nodup ∧ renames = hs.filterMap (newName? g) := by
  induction hs generalizing taken renames with
  | nil =>
      rw [newNames, Except.ok.injEq]
      exact ⟨fun he => ⟨by simp, List.nodup_nil, he.symm⟩, fun hr => hr.2.2.symm⟩
  | cons h hs ih =>
      rw [newNames]
      cases hn : g.get? h with
      | none => simp [Graph.node, hn, present]
      | some n =>
          rw [node_eq_ok.mpr hn, List.map_cons, List.nodup_cons, List.filterMap_cons, newName?,
            nameOf_of_get? hn]
          dsimp only
          by_cases hempty : identifier n.name = ""
          · simp [hempty, hn]
          by_cases htaken : identifier n.name ∈ taken
          · simp [hempty, htaken, hn]
          rw [if_neg hempty, if_neg htaken]
          -- That a later layer's identifier is not the one just taken is said on the right by
          -- the identifiers being distinct.
          have hiff : (∀ k ∈ hs, ∃ m, g.get? k = some m ∧ identifier m.name ≠ "" ∧
                identifier m.name ∉ identifier n.name :: taken) ↔
              (∀ k ∈ hs, ∃ m, g.get? k = some m ∧ identifier m.name ≠ "" ∧
                identifier m.name ∉ taken) ∧
              identifier n.name ∉ hs.map fun k => identifier (g.nameOf k) := by
            constructor
            · intro hall
              refine ⟨fun k hk => ?_, fun hmem => ?_⟩
              · obtain ⟨m, hm, hne, hnot⟩ := hall k hk
                exact ⟨m, hm, hne, fun ht => hnot (List.mem_cons_of_mem _ ht)⟩
              · obtain ⟨k, hk, hkn⟩ := List.mem_map.mp hmem
                obtain ⟨m, hm, _, hnot⟩ := hall k hk
                rw [nameOf_of_get? hm] at hkn
                exact hnot (hkn ▸ List.mem_cons_self)
            · rintro ⟨hall, hnot⟩ k hk
              obtain ⟨m, hm, hne, hmt⟩ := hall k hk
              refine ⟨m, hm, hne, fun ht => ?_⟩
              rcases List.mem_cons.mp ht with he | ht
              · exact hnot (List.mem_map.mpr ⟨k, hk, by rw [nameOf_of_get? hm, he]⟩)
              · exact hmt ht
          have hhead : ∃ n', g.get? h = some n' ∧ identifier n'.name ≠ "" ∧
              identifier n'.name ∉ taken := ⟨n, hn, hempty, htaken⟩
          cases hrest : newNames g (identifier n.name :: taken) hs with
          | error f =>
              constructor
              · intro hf
                contradiction
              · rintro ⟨hall, ⟨hnot, hnd⟩, _⟩
                have hok := ih.mpr ⟨hiff.mpr ⟨fun k hk => hall k (List.mem_cons_of_mem h hk),
                  hnot⟩, hnd, rfl⟩
                rw [hrest] at hok
                contradiction
          | ok rest =>
              obtain ⟨hall, hnd, hrenames⟩ := ih.mp hrest
              obtain ⟨hall', hnot⟩ := hiff.mp hall
              have hcons : ∀ k ∈ h :: hs, ∃ m, g.get? k = some m ∧ identifier m.name ≠ "" ∧
                  identifier m.name ∉ taken := List.forall_mem_cons.mpr ⟨hhead, hall'⟩
              subst hrenames
              by_cases hsame : identifier n.name = n.name
              · simp only [if_pos hsame, Except.ok.injEq]
                exact ⟨fun he => ⟨hcons, ⟨hnot, hnd⟩, he.symm⟩, fun hr => hr.2.2.symm⟩
              · simp only [if_neg hsame, Except.ok.injEq]
                exact ⟨fun he => ⟨hcons, ⟨hnot, hnd⟩, he.symm⟩, fun hr => hr.2.2.symm⟩

/-! ## Renaming -/

/-- The graph with some layers under other names. -/
def renamed (g : Graph) (renames : List (Handle × String)) : Graph :=
  renames.foldl (fun g r => g.modify r.1 (Node.named r.2)) g

/-- Giving names never fails. -/
theorem renameAll_apply (renames : List (Handle × String)) (w : Workspace) :
    ∃ w', renameAll renames w = .ok () w' ∧ w'.graph = renamed w.graph renames ∧
      w'.session.stats = w.session.stats ∧ w'.session.types = w.session.types := by
  induction renames generalizing w with
  | nil => exact ⟨w, rfl, rfl, rfl, rfl⟩
  | cons r renames ih =>
      obtain ⟨h, name⟩ := r
      obtain ⟨w', hall, hgraph, hsession⟩ := ih
        ⟨w.graph.modify h (Node.named name),
          w.session.note .trace s!"Renaming '{w.graph.nameOf h}' to '{name}'"⟩
      exact ⟨w', hall, hgraph, hsession⟩

/-- Renaming keeps the order. -/
theorem order_renamed (g : Graph) (renames : List (Handle × String)) :
    (renamed g renames).order = g.order := by
  rw [renamed]
  induction renames generalizing g with
  | nil => rfl
  | cons r renames ih => rw [List.foldl_cons, ih, order_modify]

/-- Where all names given to a node are the same, it has that name. -/
theorem get?_renamed (name : Handle → String) {renames : List (Handle × String)}
    (hr : ∀ r ∈ renames, r.2 = name r.1) (g : Graph) (k : Handle) :
    (renamed g renames).get? k =
      if k ∈ renames.map Prod.fst then (g.get? k).map (Node.named (name k)) else g.get? k := by
  rw [renamed]
  induction renames generalizing g with
  | nil => rfl
  | cons r renames ih =>
      have hname : r.2 = name r.1 := hr r List.mem_cons_self
      rw [List.foldl_cons, ih fun r' hr' => hr r' (List.mem_cons_of_mem r hr'), get?_modify,
        hname, List.map_cons]
      by_cases hk : r.1 = k
      · subst hk
        rw [if_pos rfl, if_pos List.mem_cons_self]
        split
        · rw [Option.map_map]
          rfl
        · rfl
      · have hmem : k ∈ r.1 :: renames.map Prod.fst ↔ k ∈ renames.map Prod.fst := by
          rw [List.mem_cons, or_iff_right (Ne.symm hk)]
        simp only [if_neg hk, hmem]

/-- Renaming succeeds when new names are found, and gives them. -/
theorem renameLayers_eq_ok {count : Nat} {w w' : Workspace} :
    renameLayers w = .ok count w' ↔ ∃ renames, newNames w.graph [] w.graph.order = .ok renames ∧
      renameAll renames w = .ok () w' ∧ count = renames.length := by
  simp only [renameLayers, Work.bind_apply, Work.graph_apply]
  cases newNames w.graph [] w.graph.order with
  | error f => simp
  | ok renames =>
      obtain ⟨v, hall, _⟩ := renameAll_apply renames w
      simp [hall, eq_comm, and_comm]

/-- What renaming has checked and changed. -/
theorem renameLayers_cases {count : Nat} {w w' : Workspace}
    (hr : renameLayers w = .ok count w') :
    w'.graph.order = w.graph.order ∧
      (∀ h ∈ w.graph.order, ∃ n, w.graph.get? h = some n ∧ identifier n.name ≠ "" ∧
        w'.graph.get? h = some (n.named (identifier n.name))) ∧
      (∀ h ∉ w.graph.order, w'.graph.get? h = w.graph.get? h) ∧
      (w.graph.order.map fun h => identifier (w.graph.nameOf h)).Nodup := by
  obtain ⟨renames, hnames, hall, _⟩ := renameLayers_eq_ok.mp hr
  obtain ⟨hlayers, hnd, hrenames⟩ := newNames_eq_ok.mp hnames
  obtain ⟨v, hall', hgraph, _⟩ := renameAll_apply renames w
  rw [hall] at hall'
  injection hall' with _ hv
  subst hv
  have hvalue : ∀ r ∈ renames, r.2 = identifier (w.graph.nameOf r.1) := by
    intro r hr
    rw [hrenames] at hr
    obtain ⟨h, _, hh⟩ := List.mem_filterMap.mp hr
    rw [newName?] at hh
    split at hh
    · contradiction
    · injection hh with hh
      rw [← hh]
  have hget := get?_renamed (fun h => identifier (w.graph.nameOf h)) hvalue w.graph
  rw [← hgraph] at hget
  refine ⟨by rw [hgraph, order_renamed], fun h hh => ?_, fun h hh => ?_, hnd⟩
  · obtain ⟨n, hn, hempty, _⟩ := hlayers h hh
    refine ⟨n, hn, hempty, ?_⟩
    rw [hget h, hn, nameOf_of_get? hn]
    split
    · rfl
    · next hnot =>
        -- A layer that gets no new name is called by its identifier.
        have hsame : identifier n.name = n.name := by
          by_contra hne
          refine hnot (List.mem_map.mpr ⟨(h, identifier n.name), ?_, rfl⟩)
          rw [hrenames]
          refine List.mem_filterMap.mpr ⟨h, hh, ?_⟩
          rw [newName?, nameOf_of_get? hn, if_neg hne]
        rw [hsame, Node.named_name]
  · rw [hget h, if_neg]
    intro hmem
    obtain ⟨r, hr, hrh⟩ := List.mem_map.mp hmem
    rw [hrenames] at hr
    obtain ⟨k, hk, hkr⟩ := List.mem_filterMap.mp hr
    rw [newName?] at hkr
    split at hkr
    · contradiction
    · injection hkr with hkr
      rw [← hrh, ← hkr] at hh
      exact hh hk

/-- Renaming gives every layer its identifier and changes nothing else. -/
theorem get?_renameLayers {count : Nat} {w w' : Workspace} (hg : w.graph.Linked)
    (hr : renameLayers w = .ok count w') (k : Handle) :
    w'.graph.get? k = (w.graph.get? k).map fun n => n.named (identifier n.name) := by
  obtain ⟨_, hlayers, hother, _⟩ := renameLayers_cases hr
  by_cases hk : k ∈ w.graph.order
  · obtain ⟨n, hn, _, hn'⟩ := hlayers k hk
    rw [hn', hn, Option.map_some]
  · rw [hother k hk]
    cases hn : w.graph.get? k with
    | none => rfl
    | some n => exact absurd (hg.mem_of_get? hn) hk

/-- Renaming keeps the graph linked. -/
theorem linked_renameLayers {count : Nat} {w w' : Workspace} (hg : w.graph.Linked)
    (hr : renameLayers w = .ok count w') : w'.graph.Linked :=
  hg.of_edges (renameLayers_cases hr).1 fun k =>
    ⟨fun n => n.named (identifier n.name), fun _ => ⟨rfl, rfl⟩, get?_renameLayers hg hr k⟩

end Simplify

end NeuralC
