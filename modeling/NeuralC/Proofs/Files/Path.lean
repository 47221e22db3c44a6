import NeuralC.Files.Path
import NeuralC.Proofs.Text.Fields

/-!
# NeuralC.Proofs.Files.Path

Paths and their pieces.  A path and the list of its pieces determine each other,
and the pieces of a path below a directory are those of the directory and those
of the path.  The directories above a file are spelled from the pieces in front
of its name, where pieces at the end that mean nothing are left out.
-/

namespace NeuralC.Path

/-! ## Pieces -/

theorem pieces_ne_nil (path : String) : pieces path ≠ [] := by
  simp [pieces, Text.fields_ne_nil]

/-- Pieces of a path have no slash in them. -/
theorem not_mem_of_mem_pieces {path piece : String} (h : piece ∈ pieces path) :
    '/' ∉ piece.toList := by
  obtain ⟨cs, hcs, rfl⟩ := List.mem_map.mp h
  simpa using Text.not_mem_of_mem_fields hcs

/-- A slash separates pieces. -/
theorem pieces_append (front back : String) :
    pieces (front ++ "/" ++ back) = pieces front ++ pieces back := by
  have htext : (front ++ "/" ++ back).toList = front.toList ++ '/' :: back.toList := by simp
  rw [pieces, htext, Text.fields_append_cons, List.map_append]
  rfl

/-- A path is its pieces with slashes between them. -/
@[simp] theorem intercalate_pieces (path : String) : "/".intercalate (pieces path) = path := by
  apply String.toList_inj.mp
  rw [String.toList_intercalate, pieces, List.map_map]
  have hid : String.toList ∘ String.ofList = id := by
    funext cs
    simp
  rw [hid, List.map_id]
  exact Text.intercalate_fields '/' path.toList

/-- Paths with the same pieces are the same. -/
theorem pieces_inj {p q : String} : pieces p = pieces q ↔ p = q := by
  refine ⟨fun h => ?_, fun h => h ▸ rfl⟩
  rw [← intercalate_pieces p, h, intercalate_pieces]

/-- Pieces that are joined can be taken apart again. -/
theorem pieces_intercalate {ps : List String} (hne : ps ≠ [])
    (hps : ∀ p ∈ ps, '/' ∉ p.toList) : pieces ("/".intercalate ps) = ps := by
  obtain ⟨p, rest, rfl⟩ := List.exists_cons_of_ne_nil hne
  have hfields : Text.fields '/' (['/'].intercalate (p.toList :: rest.map String.toList)) =
      p.toList :: rest.map String.toList := by
    apply Text.fields_intercalate
    rw [← List.map_cons, List.forall_mem_map]
    intro q hq c hc hslash
    exact hps q hq (hslash ▸ hc)
  have hid : String.ofList ∘ String.toList = id := funext fun _ => String.ofList_toList
  rw [pieces, String.toList_intercalate, List.map_cons]
  exact (congrArg (List.map String.ofList) hfields).trans (by simp [hid])

/-- A path in which no piece is empty does not start with a slash. -/
theorem startsWith_eq_false {path : String} (h : "" ∉ pieces path) :
    path.startsWith "/" = false := by
  rw [Bool.eq_false_iff]
  intro hslash
  obtain ⟨rest, hrest⟩ := String.startsWith_string_iff.mp hslash
  have hpath : path = "" ++ "/" ++ String.ofList rest := by
    apply String.toList_inj.mp
    simp [← hrest]
  rw [hpath, pieces_append] at h
  exact h (List.mem_append_left _ (by decide))

/-- A path whose last piece is not empty does not end with a slash. -/
theorem endsWith_eq_false {path : String} (h : (pieces path).getLast? ≠ some "") :
    path.endsWith "/" = false := by
  rw [Bool.eq_false_iff]
  intro hslash
  obtain ⟨front, hfront⟩ := String.Slice.endsWith_string_iff.mp hslash
  have hpath : path = String.ofList front ++ "/" ++ "" := by
    apply String.toList_inj.mp
    simpa using hfront.symm
  rw [hpath, pieces_append] at h
  apply h
  rw [show pieces "" = [""] from rfl, List.getLast?_concat]

/-- A path below a directory is the text of the directory, without a slash at its end, and
that of the path. -/
theorem exists_join {dir path : String} (hdir : dir ≠ "") (hpath : "" ∉ pieces path) :
    ∃ front, join dir path = front ++ "/" ++ path ∧ (dir = front ∨ dir = front ++ "/") := by
  rw [join, if_neg (by simp [startsWith_eq_false hpath, hdir])]
  split
  · next hslash =>
    obtain ⟨front, hfront⟩ := String.Slice.endsWith_string_iff.mp hslash
    have hdir : dir = String.ofList front ++ "/" := by
      apply String.toList_inj.mp
      simpa using hfront.symm
    exact ⟨String.ofList front, by rw [hdir], .inr hdir⟩
  · exact ⟨dir, rfl, .inl rfl⟩

/-! ## Directories above -/

theorem trimmed_cons {piece : String} (hpiece : isVoid piece = false) (rest : List String) :
    trimmed (piece :: rest) = piece :: rest := by
  cases rest with
  | nil => rfl
  | cons next rest => simp [trimmed, hpiece]

theorem trimmed_ne_nil {reversed : List String} (hne : reversed ≠ []) :
    trimmed reversed ≠ [] := by
  fun_induction trimmed reversed with
  | case1 piece next rest hvoid ih => exact ih (by simp)
  | case2 piece next rest hvoid => simp
  | case3 short hshort => exact hne

/-- What is left out at the end means nothing. -/
theorem exists_voids (reversed : List String) :
    ∃ voids, (∀ v ∈ voids, isVoid v = true) ∧ reversed = voids ++ trimmed reversed := by
  fun_induction trimmed reversed with
  | case1 piece next rest hvoid ih =>
      obtain ⟨voids, hvoids, heq⟩ := ih
      exact ⟨piece :: voids, List.forall_mem_cons.mpr ⟨hvoid, hvoids⟩, congrArg _ heq⟩
  | case2 piece next rest hvoid => exact ⟨[], by simp, rfl⟩
  | case3 short hshort => exact ⟨[], by simp, rfl⟩

/-- Empty pieces at the end do not count among the directories above. -/
theorem leading_trimmed (reversed : List String) :
    leading (trimmed reversed) = leading reversed := by
  fun_induction trimmed reversed with
  | case1 piece next rest hvoid ih => rw [ih, leading, if_pos hvoid]
  | case2 piece next rest hvoid => rfl
  | case3 short hshort => rfl

/-- The longest of the paths that lead to a piece is spelled from all pieces; the root needs no
path. -/
theorem leading_cases {reversed : List String} (hne : reversed ≠ []) :
    trimmed reversed = [""] ∧ leading reversed = [] ∨
      trimmed reversed ≠ [""] ∧
        ∃ above, leading reversed = spell (trimmed reversed) :: above := by
  fun_induction trimmed reversed with
  | case1 piece next rest hvoid ih =>
      rw [leading, if_pos hvoid]
      exact ih (by simp)
  | case2 piece next rest hvoid =>
      rw [leading, if_neg hvoid]
      exact .inr ⟨by simp, _, rfl⟩
  | case3 short hshort =>
      match short, hne, hshort with
      | [piece], _, _ =>
          by_cases hpiece : piece = ""
          · exact .inl ⟨by rw [hpiece], by rw [leading, if_pos hpiece]⟩
          · refine .inr ⟨by simpa using hpiece, [], ?_⟩
            rw [leading, if_neg hpiece, spell, if_neg (by simpa using hpiece)]
            simp
      | piece :: next :: rest, _, hshort => exact absurd rfl (hshort piece next rest)

/-- The directories above a name are the path itself and those above its front. -/
theorem leading_concat {front : List String} {name : String} (hfront : front ≠ [])
    (hname : isVoid name = false) :
    leading (front ++ [name]).reverse =
      spell (front ++ [name]).reverse :: leading front.reverse := by
  obtain ⟨next, rest, hnext⟩ : ∃ next rest, front.reverse = next :: rest :=
    List.exists_cons_of_ne_nil (by simpa using hfront)
  rw [List.reverse_concat, hnext, leading, if_neg (by simp [hname])]

/-- A path that is spelled out has the pieces that it was spelled from. -/
theorem pieces_spell {reversed : List String} (hne : reversed ≠ []) (hroot : reversed ≠ [""])
    (hps : ∀ p ∈ reversed, '/' ∉ p.toList) : pieces (spell reversed) = reversed.reverse := by
  rw [spell, if_neg hroot]
  exact pieces_intercalate (by simpa using hne) (by simpa using hps)

theorem spell_ne_empty {reversed : List String} (hne : reversed ≠ []) (hroot : reversed ≠ [""])
    (hps : ∀ p ∈ reversed, '/' ∉ p.toList) : spell reversed ≠ "" := by
  intro h
  have hpieces := pieces_spell hne hroot hps
  rw [h, eq_comm, List.reverse_eq_iff] at hpieces
  exact hroot hpieces

/-- The first pieces of a path spell a text that it starts with. -/
theorem spell_isPrefix {reversed : List String} {path : String} (hne : reversed ≠ [])
    (hroot : reversed ≠ [""]) (h : reversed.reverse <+: pieces path) :
    (spell reversed).toList <+: path.toList := by
  obtain ⟨rest, hrest⟩ := h
  rw [spell, if_neg hroot]
  by_cases hnil : rest = []
  · rw [hnil, List.append_nil] at hrest
    have hwhole : ("/".intercalate reversed.reverse).toList = path.toList := by
      rw [hrest, intercalate_pieces]
    exact hwhole ▸ List.prefix_rfl
  · have hpath := intercalate_pieces path
    rw [← hrest, String.intercalate_append_of_ne_nil (by simpa using hne) hnil] at hpath
    rw [← hpath]
    simp

/-- The ancestors of a path that is spelled out. -/
theorem ancestors_spell {reversed : List String} (hne : reversed ≠ [])
    (hps : ∀ p ∈ reversed, '/' ∉ p.toList) : ancestors (spell reversed) = leading reversed := by
  by_cases hroot : reversed = [""]
  · rw [hroot]
    decide
  · rw [ancestors, pieces_spell hne hroot hps, List.reverse_reverse]

/-- The directories above a file, for the pieces in front of its name. -/
theorem parent?_eq {path name : String} {front : List String}
    (hpath : pieces path = front ++ [name]) (hfront : front ≠ []) (hname : isVoid name = false) :
    ∃ parent, parent? path = some parent ∧ ancestors parent = leading front.reverse := by
  have hreverse : front.reverse ≠ [] := by simpa using hfront
  have htrimmed : trimmed (pieces path).reverse = name :: front.reverse := by
    rw [hpath, List.reverse_concat, trimmed_cons hname]
  obtain ⟨voids, -, hvoids⟩ := exists_voids front.reverse
  refine ⟨spell (trimmed front.reverse), ?_, ?_⟩
  · obtain ⟨next, rest, hnext⟩ := List.exists_cons_of_ne_nil hreverse
    simp [parent?, htrimmed, hnext]
  · rw [ancestors_spell (trimmed_ne_nil hreverse), leading_trimmed]
    · intro p hp
      have hmem : p ∈ pieces path := by
        rw [hpath, List.mem_append, ← List.mem_reverse, hvoids]
        exact .inl (List.mem_append_right voids hp)
      exact not_mem_of_mem_pieces hmem

end NeuralC.Path
