import NeuralC.Proofs.Graph.Deletions
import NeuralC.Proofs.Simplify.Names

/-!
# NeuralC.Proofs.Simplify.Identifiers

When layers can be called by identifiers, and what becomes of the graph then.
`IsIdentifier` says what an identifier is, character by character.

1. A name with a character that can stay has an identifier, and an identifier is
   called by itself (`isIdentifier_identifier`, `identifier_identifier`).
2. Dropping characters is not injective, so renaming is refused when two layers
   have one identifier.  It is refused before any name is changed, and otherwise
   changes names only (`renameLayers_identifies`).
-/

namespace NeuralC

namespace Simplify

open NeuralC.Graph

/-! ## Characters -/

def IsDecimal (c : Char) : Prop := '0' ≤ c ∧ c ≤ '9'

/-- A Latin letter, a decimal digit or an underscore. -/
def IsWordChar (c : Char) : Prop :=
  ('A' ≤ c ∧ c ≤ 'Z') ∨ ('a' ≤ c ∧ c ≤ 'z') ∨ IsDecimal c ∨ c = '_'

instance (c : Char) : Decidable (IsDecimal c) := inferInstanceAs (Decidable (_ ∧ _))

instance (c : Char) : Decidable (IsWordChar c) := inferInstanceAs (Decidable (_ ∨ _ ∨ _ ∨ _))

theorem isDigit_iff {c : Char} : c.isDigit = true ↔ IsDecimal c := by
  simp [Char.isDigit, IsDecimal, Char.le_def]

/-- The characters that renaming keeps are those of C identifiers. -/
theorem isIdentifierChar_iff {c : Char} : isIdentifierChar c = true ↔ IsWordChar c := by
  have hupper : c.isUpper = decide ('A' ≤ c ∧ c ≤ 'Z') := rfl
  have hlower : c.isLower = (decide ('a' ≤ c) && decide (c ≤ 'z')) := rfl
  have halpha : c.isAlphanum = (c.isUpper || c.isLower || c.isDigit) := rfl
  simp [isIdentifierChar, IsWordChar, halpha, hupper, hlower, isDigit_iff, or_assoc]

/-! ## Identifiers -/

/-- Letters, digits and underscores, the first of them no digit. -/
structure IsIdentifier (name : String) : Prop where
  first : ∃ c, name.toList.head? = some c ∧ ¬ IsDecimal c
  chars : ∀ c ∈ name.toList, IsWordChar c

/-- A name has an identifier when some character of it can stay. -/
theorem identifier_ne_empty_iff {name : String} :
    identifier name ≠ "" ↔ ∃ c ∈ name.toList, IsWordChar c := by
  have hfilter : name.toList.filter isIdentifierChar ≠ [] ↔ ∃ c ∈ name.toList, IsWordChar c := by
    simp [List.filter_eq_nil_iff, isIdentifierChar_iff]
  rw [← hfilter, identifier]
  split
  · next hnil => simp [hnil]
  · next hcons =>
      rw [hcons]
      split <;> simp [← String.toList_inj]

/-- A name that is not empty becomes an identifier. -/
theorem isIdentifier_identifier {name : String} (h : identifier name ≠ "") :
    IsIdentifier (identifier name) := by
  have hkept : ∀ c ∈ name.toList.filter isIdentifierChar, IsWordChar c := fun c hc =>
    isIdentifierChar_iff.mp (List.mem_filter.mp hc).2
  rw [identifier] at h ⊢
  split at h
  · contradiction
  · next c cs hcons =>
      rw [hcons] at hkept
      by_cases hd : c.isDigit = true
      · rw [if_pos hd]
        refine ⟨⟨'_', by simp, by decide⟩, ?_⟩
        rw [String.toList_ofList]
        exact List.forall_mem_cons.mpr ⟨by decide, hkept⟩
      · rw [if_neg hd]
        exact ⟨⟨c, by simp, by rwa [← isDigit_iff]⟩, by simpa using hkept⟩

/-! ## Graphs -/

/-- The graph with every layer of its order under its identifier, and nothing else changed. -/
def identified (g : Graph) : Graph :=
  { g with slots := g.slots.mapIdx fun h slot =>
      if h ∈ g.order then slot.map fun n => n.named (identifier n.name) else slot }

/-- In the renamed graph every layer has the identifier of its name. -/
theorem get?_identified (g : Graph) (k : Handle) : (identified g).get? k =
    if k ∈ g.order then (g.get? k).map fun n => n.named (identifier n.name) else g.get? k := by
  simp only [get?, identified, List.getElem?_mapIdx]
  cases g.slots[k]? <;> split <;> simp

theorem fresh_renamed (g : Graph) (renames : List (Handle × String)) :
    (renamed g renames).fresh = g.fresh := by
  rw [renamed]
  induction renames generalizing g with
  | nil => rfl
  | cons r renames ih => rw [List.foldl_cons, ih, fresh_modify]

/-- What renaming leaves at work. -/
theorem workspace_renameLayers {count : Nat} {w w' : Workspace}
    (hr : renameLayers w = .ok count w') :
    w'.graph = identified w.graph ∧ w'.session.stats = w.session.stats ∧
      w'.session.types = w.session.types := by
  obtain ⟨horder, hlayers, hother, _⟩ := renameLayers_cases hr
  obtain ⟨renames, _, hall, _⟩ := renameLayers_eq_ok.mp hr
  obtain ⟨v, hall', hgraph, hsession⟩ := renameAll_apply renames w
  obtain rfl : w' = v := by simpa [hall] using hall'
  refine ⟨eq_of_get? horder ?_ fun k => ?_, hsession⟩
  · rw [hgraph, fresh_renamed]
    simp [fresh, identified]
  · rw [get?_identified]
    split
    · next hk =>
        obtain ⟨n, hn, _, hn'⟩ := hlayers k hk
        rw [hn', hn, Option.map_some]
    · next hk => exact hother k hk

/-- Renaming goes through when every layer has an identifier that no other layer has. -/
theorem exists_renameLayers_iff {w : Workspace} :
    (∃ count w', renameLayers w = .ok count w') ↔
      (∀ h ∈ w.graph.order, ∃ n, w.graph.get? h = some n ∧ identifier n.name ≠ "") ∧
      (w.graph.order.map fun h => identifier (w.graph.nameOf h)).Nodup := by
  constructor
  · rintro ⟨count, w', hr⟩
    obtain ⟨_, hlayers, _, hnd⟩ := renameLayers_cases hr
    refine ⟨fun h hh => ?_, hnd⟩
    obtain ⟨n, hn, hempty, _⟩ := hlayers h hh
    exact ⟨n, hn, hempty⟩
  · rintro ⟨hlayers, hnd⟩
    have hnames : newNames w.graph [] w.graph.order =
        .ok (w.graph.order.filterMap (newName? w.graph)) :=
      newNames_eq_ok.mpr ⟨fun h hh => by simpa using hlayers h hh, hnd, rfl⟩
    obtain ⟨w', hall, _⟩ := renameAll_apply (w.graph.order.filterMap (newName? w.graph)) w
    exact ⟨_, w', renameLayers_eq_ok.mpr ⟨_, hnames, hall, rfl⟩⟩

/-- Renaming that is refused has changed nothing: all names are checked first. -/
theorem renameLayers_eq_error {f : Failure} {w w' : Workspace}
    (hr : renameLayers w = .error f w') : w' = w := by
  simp only [renameLayers, Work.bind_apply, Work.graph_apply] at hr
  cases hnames : newNames w.graph [] w.graph.order with
  | error f' =>
      simp only [hnames, Work.attempt_error_apply, EStateM.Result.error.injEq] at hr
      exact hr.2.symm
  | ok renames =>
      obtain ⟨v, hall, _⟩ := renameAll_apply renames w
      simp [hnames, hall] at hr

/-- **Renaming goes through exactly when every name keeps a character and no two layers get one
identifier.**  Then every layer is called by its identifier, which is one, and nothing else has
changed; otherwise nothing at all has. -/
theorem renameLayers_identifies (w : Workspace) :
    ((∃ count w', renameLayers w = .ok count w') ↔
      (∀ h ∈ w.graph.order, ∃ n, w.graph.get? h = some n ∧ ∃ c ∈ n.name.toList, IsWordChar c) ∧
      (w.graph.order.map fun h => identifier (w.graph.nameOf h)).Nodup) ∧
    (∀ count w', renameLayers w = .ok count w' →
      w'.graph = identified w.graph ∧ w'.session.stats = w.session.stats ∧
      w'.session.types = w.session.types ∧
      (∀ h ∈ w.graph.order, w'.graph.nameOf h = identifier (w.graph.nameOf h) ∧
        IsIdentifier (w'.graph.nameOf h)) ∧
      (w.graph.order.map w'.graph.nameOf).Nodup) ∧
    (∀ f w', renameLayers w = .error f w' → w' = w) ∧
    ∀ name, identifier (identifier name) = identifier name := by
  refine ⟨?_, fun count w' hr => ?_, fun f w' => renameLayers_eq_error, identifier_identifier⟩
  · simp only [← identifier_ne_empty_iff]
    exact exists_renameLayers_iff
  · obtain ⟨_, hlayers, _, hnd⟩ := renameLayers_cases hr
    obtain ⟨hgraph, hstats, htypes⟩ := workspace_renameLayers hr
    have hname : ∀ h ∈ w.graph.order, w'.graph.nameOf h = identifier (w.graph.nameOf h) ∧
        IsIdentifier (w'.graph.nameOf h) := by
      intro h hh
      obtain ⟨n, hn, hempty, hn'⟩ := hlayers h hh
      rw [nameOf_of_get? hn, nameOf_of_get? hn', Node.name_named]
      exact ⟨rfl, isIdentifier_identifier hempty⟩
    refine ⟨hgraph, hstats, htypes, hname, ?_⟩
    rwa [List.map_congr_left fun h hh => (hname h hh).1]

/-- The graph of an input and a layer behind it, under the given names. -/
def calledBy (first second : String) : Graph where
  slots := [some ⟨.source first [1, 2], none, [], [1]⟩,
    some ⟨⟨second, [[1, 2]], [[1, 2]], .float32, .flatten⟩, none, [0], []⟩]
  order := [0, 1]

/-- A digit in front gets an underscore, and two names that become the same are refused. -/
theorem renameLayers_first :
    (∃ count w', renameLayers ⟨calledBy "1.é" "_2", {}⟩ = .ok count w' ∧
      w'.graph = calledBy "_1" "_2" ∧ IsIdentifier (w'.graph.nameOf 0)) ∧
    ¬ ∃ count w', renameLayers ⟨calledBy "1st" "_1st", {}⟩ = .ok count w' := by
  constructor
  · obtain ⟨hiff, hok, _⟩ := renameLayers_identifies ⟨calledBy "1.é" "_2", {}⟩
    have hfirst : ∃ c ∈ "1.é".toList, IsWordChar c := ⟨'1', by decide, by decide⟩
    have hsecond : ∃ c ∈ "_2".toList, IsWordChar c := ⟨'_', by decide, by decide⟩
    obtain ⟨count, w', hr⟩ := hiff.mpr ⟨List.forall_mem_cons.mpr ⟨⟨_, rfl, hfirst⟩,
      List.forall_mem_singleton.mpr ⟨_, rfl, hsecond⟩⟩, by decide⟩
    obtain ⟨hgraph, _, _, hname, _⟩ := hok count w' hr
    exact ⟨count, w', hr, hgraph.trans (by decide), (hname 0 (by decide)).2⟩
  · rw [(renameLayers_identifies ⟨calledBy "1st" "_1st", {}⟩).1]
    rintro ⟨_, hnd⟩
    exact absurd hnd (by decide)

end Simplify

end NeuralC
