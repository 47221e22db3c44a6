import Mathlib.Data.List.Induction
import Mathlib.Data.List.Nodup
import NeuralC.Calibration.Table

/-!
# NeuralC.Proofs.Calibration.Table

What a table of calibration entries holds.  An insertion is seen by the lookup of
its name only (`get?_insert`), and the names stand in the order in which they
were inserted first (`names_insert`).  A table that is filled from lines
therefore gives the last line for each name, in the order of the first ones.

A reading of lines keeps, beside the table, the first scale factor and the first
rounding that a line gives for an input (`Reading.ofLines_eq`).  They make the entry for
the input that is added at the end where no line names it.
-/

namespace NeuralC.Calibration

namespace Table

def names (t : Table) : List String := t.entries.map (·.1)

/-! ## One insertion -/

/-- Looking up a name finds the last entry that was inserted for it. -/
theorem get?_insert (t : Table) (name : String) (e : Entry) (key : String) :
    (t.insert name e).get? key = if key = name then some e else t.get? key := by
  rw [get?, get?, insert]
  induction t.entries with
  | nil => by_cases hk : key = name <;> simp [put, hk, eq_comm]
  | cons p rest ih =>
      obtain ⟨other, old⟩ := p
      rw [put]
      split
      · next heq =>
          subst heq
          by_cases hk : key = other
          · simp [hk]
          · simp [hk, Ne.symm hk]
      · next hne =>
          by_cases hk : other = key
          · subst hk
            simp [hne]
          · simpa [hk] using ih

/-- A new name comes behind the others; one that is there keeps its place. -/
theorem names_insert (t : Table) (name : String) (e : Entry) :
    (t.insert name e).names = if name ∈ t.names then t.names else t.names ++ [name] := by
  rw [names, names, insert]
  induction t.entries with
  | nil => rfl
  | cons p rest ih =>
      obtain ⟨other, old⟩ := p
      rw [put]
      split
      · next heq => simp [heq]
      · next hne =>
          rw [List.map_cons, List.map_cons, ih]
          by_cases hmem : name ∈ rest.map (·.1)
          · simp [hmem]
          · simp [hmem, Ne.symm hne]

/-- A name has an entry exactly if it is listed. -/
theorem isSome_get? {t : Table} {name : String} :
    (t.get? name).isSome = true ↔ name ∈ t.names := by
  simp [get?, names]

/-- The table has each name once. -/
def Distinct (t : Table) : Prop := t.names.Nodup

/-- An insertion keeps the names distinct. -/
theorem Distinct.insert {t : Table} (ht : t.Distinct) (name : String) (e : Entry) :
    (t.insert name e).Distinct := by
  rw [Distinct, names_insert]
  split
  · exact ht
  · next hnew => exact List.nodup_append'.mpr ⟨ht, List.nodup_singleton name, by simpa using hnew⟩

/-- In a table with each name once, every entry is found under its name. -/
theorem Distinct.get?_of_mem {t : Table} (ht : t.Distinct) {name : String} {e : Entry}
    (hp : (name, e) ∈ t.entries) : t.get? name = some e := by
  obtain ⟨found, hfound⟩ := Option.isSome_iff_exists.mp
    (isSome_get?.mpr (List.mem_map_of_mem (f := (·.1)) hp))
  rw [hfound]
  obtain ⟨⟨other, e'⟩, hfind, rfl⟩ := Option.map_eq_some_iff.mp hfound
  have hname : other = name := by simpa using List.find?_some hfind
  have hsame := List.inj_on_of_nodup_map ht (List.mem_of_find?_eq_some hfind) hp hname
  rw [hsame]

/-! ## Many insertions -/

def filled (lines : List (String × Entry)) : Table :=
  lines.foldl (fun (t : Table) (name, e) => t.insert name e) .empty

theorem filled_concat (lines : List (String × Entry)) (name : String) (e : Entry) :
    filled (lines ++ [(name, e)]) = (filled lines).insert name e :=
  List.foldl_concat ..

/-- The table gives the last line for a name. -/
theorem get?_filled (lines : List (String × Entry)) (name : String) :
    (filled lines).get? name = lines.reverse.lookup name := by
  induction lines using List.reverseRecOn with
  | nil => rfl
  | append_singleton lines p ih =>
      obtain ⟨other, e⟩ := p
      rw [filled_concat, get?_insert, ih, List.reverse_concat, List.lookup_cons]
      by_cases h : name = other
      · simp [h]
      · simp [h, beq_false_of_ne h]

/-- The names stand in the order of their first lines. -/
theorem names_filled (lines : List (String × Entry)) :
    (filled lines).names = (lines.map (·.1)).eraseDups := by
  induction lines using List.reverseRecOn with
  | nil => rfl
  | append_singleton lines p ih =>
      obtain ⟨name, e⟩ := p
      rw [filled_concat, names_insert, ih, List.map_append, List.eraseDups_append]
      by_cases h : name ∈ lines.map (·.1)
      · simp [h, List.mem_eraseDups, List.cons_removeAll]
      · simp [h, List.mem_eraseDups, List.cons_removeAll, List.eraseDups_cons]

/-- A table filled line by line has distinct names. -/
theorem distinct_filled (lines : List (String × Entry)) : (filled lines).Distinct := by
  induction lines using List.reverseRecOn with
  | nil => exact List.nodup_nil
  | append_singleton lines p ih =>
      obtain ⟨name, e⟩ := p
      rw [filled_concat]
      exact ih.insert name e

/-- The names of the table are those of the lines. -/
theorem mem_names_filled {lines : List (String × Entry)} {name : String} :
    name ∈ (filled lines).names ↔ name ∈ lines.map (·.1) := by
  rw [names_filled, List.mem_eraseDups]

/-- A table is empty only without lines. -/
theorem isEmpty_filled {lines : List (String × Entry)} :
    (filled lines).isEmpty = true ↔ lines = [] := by
  rw [isEmpty, List.isEmpty_iff]
  constructor
  · intro hempty
    by_contra hne
    obtain ⟨p, rest, rfl⟩ := List.exists_cons_of_ne_nil hne
    have hmem : p.1 ∈ (filled (p :: rest)).names := mem_names_filled.mpr (by simp)
    rw [names, hempty] at hmem
    contradiction
  · rintro rfl
    rfl

end Table

/-! ## The entry of the input -/

namespace Reading

/-- What has been read of some lines. -/
def ofLines (lines : List (String × Entry)) : Reading :=
  lines.foldl (fun r (name, e) => r.add name e) .start

theorem ofLines_concat (lines : List (String × Entry)) (name : String) (e : Entry) :
    ofLines (lines ++ [(name, e)]) = (ofLines lines).add name e :=
  List.foldl_concat ..

/-- The table of some lines, with the first scale factor and the first rounding that any of them
gives for its input. -/
def firstPresent (lines : List (String × Entry)) : Reading where
  table := Table.filled lines
  inputScale := lines.findSome? (·.2.inputScale)
  inputRound := lines.findSome? (·.2.inputRound)

/-- A value that is kept once it is there is the first that is there. -/
theorem ofLines_eq (lines : List (String × Entry)) : ofLines lines = firstPresent lines := by
  induction lines using List.reverseRecOn with
  | nil => rfl
  | append_singleton lines p ih =>
      obtain ⟨name, e⟩ := p
      rw [ofLines_concat, ih, firstPresent, firstPresent, Table.filled_concat,
        List.findSome?_append, List.findSome?_append]
      simp [add]

end Reading

/-- The table of some lines for a model whose input has the given name. -/
def ofLines (lines : List (String × Entry)) (input : String) : Table :=
  (Reading.ofLines lines).complete input

/-- There are lines, but none for the input. -/
def Unnamed (lines : List (String × Entry)) (input : String) : Prop :=
  lines ≠ [] ∧ input ∉ lines.map (·.1)

instance (lines : List (String × Entry)) (input : String) : Decidable (Unnamed lines input) :=
  inferInstanceAs (Decidable (_ ∧ _))

/-- An entry for the input is added where there are lines, but none for it. -/
theorem ofLines_eq (lines : List (String × Entry)) (input : String) :
    ofLines lines input =
      if Unnamed lines input then
        (Table.filled lines).insert input (Reading.firstPresent lines).inputEntry
      else Table.filled lines := by
  have hnamed : ((Table.filled lines).isEmpty = true ∨
      ((Table.filled lines).get? input).isSome = true) ↔ ¬Unnamed lines input := by
    rw [Table.isEmpty_filled, Table.isSome_get?, Table.mem_names_filled, Unnamed, not_and_or,
      not_not, not_not]
  rw [ofLines, Reading.ofLines_eq, Reading.complete]
  by_cases hu : Unnamed lines input
  · rw [if_pos hu]
    exact if_neg fun h => hnamed.mp h hu
  · rw [if_neg hu]
    exact if_pos (hnamed.mpr hu)

/-- Every name has the last line for it, and an input that no line names its own entry. -/
theorem get?_ofLines (lines : List (String × Entry)) (input name : String) :
    (ofLines lines input).get? name = if Unnamed lines input ∧ name = input then
      some (Reading.firstPresent lines).inputEntry else lines.reverse.lookup name := by
  rw [ofLines_eq, ← Table.get?_filled]
  by_cases hu : Unnamed lines input
  · simp [hu, Table.get?_insert]
  · simp [hu]

/-- The names stand in the order of their first lines, and an input that no line names is last. -/
theorem names_ofLines (lines : List (String × Entry)) (input : String) :
    (ofLines lines input).names =
      (lines.map (·.1)).eraseDups ++ if Unnamed lines input then [input] else [] := by
  rw [ofLines_eq, ← Table.names_filled]
  by_cases hu : Unnamed lines input
  · rw [if_pos hu, if_pos hu, Table.names_insert, if_neg (mt Table.mem_names_filled.mp hu.2)]
  · rw [if_neg hu, if_neg hu, List.append_nil]

/-- The entry of the input layer keeps the names distinct. -/
theorem distinct_ofLines (lines : List (String × Entry)) (input : String) :
    (ofLines lines input).Distinct := by
  rw [ofLines_eq]
  split
  · exact (Table.distinct_filled lines).insert input _
  · exact Table.distinct_filled lines

end NeuralC.Calibration
