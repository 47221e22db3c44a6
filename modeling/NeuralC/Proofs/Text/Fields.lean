import Mathlib.Data.List.Induction
import NeuralC.Text.Blank

/-!
# NeuralC.Proofs.Text.Fields

Cutting a text at a separator and joining the pieces again.  Cutting undoes
joining when no piece holds the separator, and joining always undoes cutting.
-/

namespace NeuralC.Text

theorem fields_ne_nil (sep : Char) (cs : List Char) : fields sep cs ≠ [] := by
  cases cs with
  | nil => simp [fields]
  | cons c cs =>
      rw [fields]
      split
      · simp
      · split <;> simp

/-- Cutting at one separator cuts the text in front of it and the text behind it apart. -/
theorem fields_append_cons (sep : Char) (front back : List Char) :
    fields sep (front ++ sep :: back) = fields sep front ++ fields sep back := by
  induction front with
  | nil => simp [fields]
  | cons c front ih =>
      rw [List.cons_append, fields, fields, ih]
      split
      · rfl
      · obtain ⟨piece, pieces, hfront⟩ := List.exists_cons_of_ne_nil (fields_ne_nil sep front)
        rw [hfront]
        rfl

/-- Text without separators is one field. -/
theorem fields_eq_singleton {sep : Char} {piece : List Char} (hpiece : ∀ c ∈ piece, c ≠ sep) :
    fields sep piece = [piece] := by
  induction piece with
  | nil => rfl
  | cons c piece ih =>
      rw [fields, if_neg (hpiece c List.mem_cons_self),
        ih fun d hd => hpiece d (List.mem_cons_of_mem c hd)]

/-- The first field ends at the first separator. -/
theorem fields_append {sep : Char} {piece : List Char} (hpiece : ∀ c ∈ piece, c ≠ sep)
    (rest : List Char) : fields sep (piece ++ sep :: rest) = piece :: fields sep rest := by
  rw [fields_append_cons, fields_eq_singleton hpiece, List.singleton_append]

/-- Cutting undoes joining when no piece holds the separator. -/
theorem fields_intercalate {sep : Char} {piece : List Char} {pieces : List (List Char)}
    (hpieces : ∀ p ∈ piece :: pieces, ∀ c ∈ p, c ≠ sep) :
    fields sep ([sep].intercalate (piece :: pieces)) = piece :: pieces := by
  induction pieces generalizing piece with
  | nil => simpa using fields_eq_singleton (hpieces piece List.mem_cons_self)
  | cons next pieces ih =>
      rw [List.intercalate_cons_cons, List.append_assoc, List.singleton_append,
        fields_append (hpieces piece List.mem_cons_self),
        ih fun p hp => hpieces p (List.mem_cons_of_mem piece hp)]

/-- A character behind a text goes to its last piece. -/
theorem fields_concat {sep c : Char} (hc : c ≠ sep) (cs : List Char) :
    ∃ front last, fields sep cs = front ++ [last] ∧
      fields sep (cs ++ [c]) = front ++ [last ++ [c]] := by
  induction cs with
  | nil => exact ⟨[], [], rfl, by rw [List.nil_append, fields, if_neg hc]; rfl⟩
  | cons d cs ih =>
      obtain ⟨front, last, hcs, hconcat⟩ := ih
      rw [List.cons_append, fields, fields, hcs, hconcat]
      split
      · exact ⟨[] :: front, last, rfl, rfl⟩
      · cases front with
        | nil => exact ⟨[], d :: last, rfl, rfl⟩
        | cons piece front => exact ⟨(d :: piece) :: front, last, rfl, rfl⟩

/-- Joined text has separators and the characters of its pieces only. -/
theorem mem_of_mem_intercalate {sep c : Char} {pieces : List (List Char)}
    (hc : c ∈ [sep].intercalate pieces) : c = sep ∨ ∃ piece ∈ pieces, c ∈ piece := by
  induction pieces with
  | nil => simp at hc
  | cons piece pieces ih =>
      cases pieces with
      | nil =>
          rw [List.intercalate_singleton] at hc
          exact .inr ⟨piece, List.mem_cons_self, hc⟩
      | cons next pieces =>
          rw [List.intercalate_cons_cons, List.append_assoc, List.mem_append, List.mem_append,
            List.mem_singleton] at hc
          rcases hc with hc | hc | hc
          · exact .inr ⟨piece, List.mem_cons_self, hc⟩
          · exact .inl hc
          · rcases ih hc with hsep | ⟨other, hother, hmem⟩
            · exact .inl hsep
            · exact .inr ⟨other, List.mem_cons_of_mem piece hother, hmem⟩

/-- No field has a separator in it. -/
theorem not_mem_of_mem_fields {sep : Char} {cs piece : List Char} (h : piece ∈ fields sep cs) :
    sep ∉ piece := by
  induction cs generalizing piece with
  | nil =>
      rw [fields, List.mem_singleton] at h
      simp [h]
  | cons c cs ih =>
      obtain ⟨first, rest, hcs⟩ := List.exists_cons_of_ne_nil (fields_ne_nil sep cs)
      rw [fields, hcs] at h
      rw [hcs] at ih
      split at h
      · rcases List.mem_cons.mp h with rfl | h
        · simp
        · exact ih h
      · next hc =>
        rcases List.mem_cons.mp h with rfl | h
        · rw [List.mem_cons, not_or]
          exact ⟨Ne.symm hc, ih List.mem_cons_self⟩
        · exact ih (List.mem_cons_of_mem first h)

/-- Joining undoes cutting. -/
theorem intercalate_fields (sep : Char) (cs : List Char) :
    [sep].intercalate (fields sep cs) = cs := by
  induction cs with
  | nil => rfl
  | cons c cs ih =>
      obtain ⟨first, rest, hcs⟩ := List.exists_cons_of_ne_nil (fields_ne_nil sep cs)
      rw [hcs] at ih
      rw [fields, hcs]
      split
      · next hc =>
        rw [List.intercalate_cons_cons, ih, hc]
        rfl
      · cases rest with
        | nil => simpa using ih
        | cons next rest =>
            rw [List.intercalate_cons_cons] at ih ⊢
            rw [← ih]
            rfl

end NeuralC.Text
