import NeuralC.C.Numbers
import NeuralC.Proofs.Compile.Macros

/-!
# NeuralC.Proofs.C.Definitions

The functions that a header defines, read from its text.  A definition starts at
the beginning of a line with the type of the result, and the line ends in a brace;
the word in front of the parameters is the name (`definition?`).

Code is put together from pieces, and what pieces define is put together with them
(`Defines.append`).  Indented code and directives define nothing, so a function
defines its own name only.  The header of the number types therefore defines the
names of its functions, in order (`definitions_numberHeader`).
-/

namespace NeuralC.C

open NeuralC.Emit

/-! ## Reading -/

/-- The function that a line defines. -/
def definition? (line : List Char) : Option String :=
  if (line.head?.any Simplify.isIdentifierChar && line.contains '(' &&
      line.getLast? == some '\x7b') = true then
    (Text.fields ' ' (line.takeWhile (· != '('))).getLast?.map String.ofList
  else none

/-- The functions that a text defines, in order. -/
def definitions (text : String) : List String := (textLines text).filterMap definition?

/-- A line without its end. -/
def Line.written (l : Line) : String :=
  if l.text.isEmpty then "" else String.join (List.replicate l.depth "  ") ++ l.text

theorem Line.render_eq (l : Line) : l.render = l.written ++ "\n" := by
  rw [render, written]
  split <;> rfl

/-- Indentation adds no line break. -/
theorem Line.isOneLine_written {l : Line} (hl : isOneLine l.text = true) :
    isOneLine l.written = true := by
  have hblanks : ∀ n, isOneLine (String.join (List.replicate n "  ")) = true := by
    intro n
    induction n with
    | zero => decide
    | succ n ih =>
        rw [List.replicate_succ, String.join_cons, isOneLine_append, ih]
        decide
  rw [written]
  split
  · decide
  · rw [isOneLine_append, hblanks, hl]
    rfl

/-- Whether every line of the code is one line of text. -/
def oneLine (code : Code) : Bool := code.all fun l => isOneLine l.text

/-- Lines are read as they are written. -/
theorem textLines_code {code : Code} (hcode : oneLine code = true) :
    textLines (render code) = code.map (fun l => l.written.toList) ++ [[]] := by
  induction code with
  | nil => decide
  | cons l code ih =>
      rw [oneLine, List.all_cons, Bool.and_eq_true] at hcode
      obtain ⟨hl, hcode⟩ := hcode
      have hcons : render (l :: code) = l.written ++ "\n" ++ render code := by
        rw [← Line.render_eq]
        simp [render]
      rw [hcons, textLines_append (Line.isOneLine_written hl), ih hcode]
      rfl

/-! ## Code -/

section OneLine

variable (text : String) (texts : List String) (code code' : Code)

@[simp] theorem oneLine_line : oneLine (line text) = isOneLine text := by simp [oneLine, line]

@[simp] theorem oneLine_lines : oneLine (lines texts) = texts.all isOneLine := by
  simp [oneLine, lines, Function.comp_def]

@[simp] theorem oneLine_append : oneLine (code ++ code') = (oneLine code && oneLine code') := by
  simp [oneLine]

@[simp] theorem oneLine_indent : oneLine (indent code) = oneLine code := by
  simp [oneLine, indent, Function.comp_def]

@[simp] theorem oneLine_braced : oneLine (braced text code) = (isOneLine text && oneLine code) := by
  have hopen : isOneLine " \x7b" = true := by decide
  have hclose : isOneLine "\x7d" = true := by decide
  simp [braced, enclosed, hopen, hclose]

end OneLine

/-- Every line of the code is one line of text, and the functions that they define are those of
the names. -/
structure Defines (code : Code) (names : List String) : Prop where
  lines_eq : oneLine code = true
  eq_names : (code.filterMap fun l => definition? l.written.toList) = names

/-- Code that defines some functions is read back as defining them. -/
theorem Defines.definitions_eq {code : Code} {names : List String} (h : Defines code names) :
    definitions (render code) = names := by
  rw [definitions, textLines_code h.lines_eq, List.filterMap_append, List.filterMap_map]
  have hend : [[]].filterMap definition? = [] := rfl
  rw [hend, List.append_nil]
  exact h.eq_names

namespace Defines

theorem nil : Defines [] [] := ⟨rfl, rfl⟩

/-- The definitions of code put together are those of its parts, in order. -/
theorem append {code code' : Code} {names names' : List String} (h : Defines code names)
    (h' : Defines code' names') : Defines (code ++ code') (names ++ names') where
  lines_eq := by simp [h.lines_eq, h'.lines_eq]
  eq_names := by rw [List.filterMap_append, h.eq_names, h'.eq_names]

/-- Code made piece by piece defines what its pieces define. -/
theorem flatMap {α : Type} {xs : List α} {code : α → Code} {names : α → List String}
    (h : ∀ x ∈ xs, Defines (code x) (names x)) : Defines (xs.flatMap code) (xs.flatMap names) := by
  induction xs with
  | nil => exact nil
  | cons x xs ih =>
      obtain ⟨hx, hxs⟩ := List.forall_mem_cons.mp h
      exact hx.append (ih hxs)

end Defines

/-- A line that does not start with a word defines nothing. -/
theorem definition?_eq_none {line : List Char}
    (h : line.head?.any Simplify.isIdentifierChar = false) : definition? line = none := by
  simp [definition?, h]

/-- Indented lines start with a blank, or are empty. -/
theorem definition?_written {l : Line} (hl : l.depth ≠ 0) :
    definition? l.written.toList = none := by
  obtain ⟨d, hd⟩ := Nat.exists_eq_succ_of_ne_zero hl
  refine definition?_eq_none ?_
  rw [Line.written, hd]
  split
  · rfl
  · simp [List.replicate_succ, String.join_cons]
    decide

/-- Indented code defines nothing. -/
theorem defines_indent {code : Code} (h : oneLine code = true) : Defines (indent code) [] where
  lines_eq := by simpa using h
  eq_names := by
    rw [List.filterMap_eq_nil_iff]
    intro l hl
    obtain ⟨l, _, rfl⟩ := List.mem_map.mp hl
    exact definition?_written (Nat.succ_ne_zero _)

theorem written_line (text : String) : Line.written ⟨0, text⟩ = text := by
  by_cases hempty : text = "" <;> simp [Line.written, hempty]

/-! ## Directives -/

/-- Text on one line that is empty or starts with the mark of a directive. -/
structure IsDirective (text : String) : Prop where
  isOneLine_eq : isOneLine text = true
  mark : text.toList.head?.all (· == '#') = true

theorem isOneLine_ofList {cs : List Char} (h : cs.all (· != '\n') = true) :
    isOneLine (String.ofList cs) = true := by
  rwa [isOneLine, String.toList_ofList]

/-- A directive starts with a hash sign, or is an empty line. -/
theorem isDirective_ofList {cs : List Char}
    (h : (cs.all (· != '\n') && cs.head?.all (· == '#')) = true) :
    IsDirective (String.ofList cs) := by
  rw [Bool.and_eq_true] at h
  exact ⟨isOneLine_ofList h.1, by rw [String.toList_ofList, h.2]⟩

/-- A directive goes on with any text. -/
theorem isDirective_append {cs : List Char} {rest : String}
    (hcs : cs.all (· != '\n') = true) (hrest : isOneLine rest = true) :
    IsDirective (String.ofList ('#' :: cs) ++ rest) := by
  have hfirst : isOneLine (String.ofList ('#' :: cs)) = true :=
    isOneLine_ofList (by simpa using hcs)
  exact ⟨by rw [isOneLine_append, hfirst, hrest]; rfl, by simp⟩

/-- A directive defines no function. -/
theorem IsDirective.definition?_eq_none {text : String} (h : IsDirective text) :
    definition? text.toList = none := by
  have hmark := h.mark
  refine C.definition?_eq_none ?_
  cases hhead : text.toList.head? with
  | none => rfl
  | some c =>
      rw [hhead, Option.all_some, beq_iff_eq] at hmark
      rw [hmark]
      decide

/-- Directives define nothing. -/
theorem defines_lines {texts : List String} (h : texts.Forall IsDirective) :
    Defines (lines texts) [] := by
  rw [List.forall_iff_forall_mem] at h
  constructor
  · simpa using fun text htext => (h text htext).isOneLine_eq
  · rw [lines, List.filterMap_map, List.filterMap_eq_nil_iff]
    intro text htext
    rw [Function.comp_apply, written_line, (h text htext).definition?_eq_none]

/-! ## Functions -/

/-- Result and name are words, and what is written stands on one line each. -/
structure InlineFunction.Tidy (f : InlineFunction) : Prop where
  result : IsWord f.result
  name : IsWord f.name
  parameters : isOneLine f.parameters = true
  body : oneLine f.body = true

/-- The characters of a function's first line. -/
theorem toList_head (f : InlineFunction) :
    (s!"static inline {f.result} {f.name}({f.parameters})" ++ " \x7b").toList =
      ("static".toList ++ ' ' :: ("inline".toList ++ ' ' :: (f.result.toList ++ ' ' ::
        f.name.toList))) ++ '(' :: (f.parameters.toList ++ [')', ' ', '\x7b']) := by
  simp [toString]

/-- The head of a function names it. -/
theorem definition?_head {f : InlineFunction} (hf : f.Tidy) :
    definition? (s!"static inline {f.result} {f.name}({f.parameters})" ++ " \x7b").toList =
      some f.name := by
  have hparen : Simplify.isIdentifierChar '(' = false := by decide
  have hblank : Simplify.isIdentifierChar ' ' = false := by decide
  have hfront : ∀ c ∈ "static".toList ++ ' ' :: ("inline".toList ++ ' ' :: (f.result.toList ++
      ' ' :: f.name.toList)), (c != '(') = true := by
    have hnot : '(' ∉ "static".toList ++ ' ' :: ("inline".toList ++ ' ' :: (f.result.toList ++
        ' ' :: f.name.toList)) := by
      simp [hf.result.not_mem hparen, hf.name.not_mem hparen]
    exact fun c hc => bne_iff_ne.mpr fun h => hnot (h ▸ hc)
  have hpiece : ∀ {name : String}, IsWord name → ∀ c ∈ name.toList, c ≠ ' ' :=
    fun hname c hc h => hname.not_mem hblank (h ▸ hc)
  have hlast : ('(' :: (f.parameters.toList ++ [')', ' ', '\x7b'])).getLast? = some '\x7b' := by
    rw [← List.cons_append, List.getLast?_append]
    rfl
  have hstatic : IsWord "static" := by simp [IsWord, Simplify.isIdentifierChar]
  have hinline : IsWord "inline" := by simp [IsWord, Simplify.isIdentifierChar]
  rw [toList_head, definition?, if_pos, List.takeWhile_append_of_pos hfront,
    List.takeWhile_cons_of_neg (by decide), List.append_nil, Text.fields_append (hpiece hstatic),
    Text.fields_append (hpiece hinline), Text.fields_append (hpiece hf.result),
    Text.fields_eq_singleton (hpiece hf.name)]
  · simp
  · rw [List.getLast?_append_of_ne_nil _ (List.cons_ne_nil _ _), hlast]
    simp [Simplify.isIdentifierChar]

/-- A tidy function is read back under its own name. -/
theorem InlineFunction.Tidy.defines {f : InlineFunction} (hf : f.Tidy) :
    Defines f.code [f.name] := by
  have hhead : Defines (line (s!"static inline {f.result} {f.name}({f.parameters})" ++ " \x7b"))
      [f.name] := by
    constructor
    · have hresult := isOneLine_of_isWord hf.result
      have hname := isOneLine_of_isWord hf.name
      simp only [oneLine_line, toString, isOneLine_append, hresult, hname, hf.parameters,
        Bool.and_true, Bool.and_eq_true]
      and_intros <;> exact isOneLine_ofList (by decide)
    · simp only [line, List.filterMap_cons, List.filterMap_nil, written_line, definition?_head hf]
  have hend : Defines (line "\x7d") [] := ⟨by decide, by decide⟩
  exact (hhead.append (defines_indent hf.body)).append hend

/-! ## Number types -/

theorem isWord_ofList {cs : List Char}
    (h : cs.all Simplify.isIdentifierChar = true) : IsWord (String.ofList cs) := by
  rw [IsWord, String.toList_ofList]
  exact List.all_eq_true.mp h

theorem isDigit_of_mem_toString {n : Nat} {c : Char} (hc : c ∈ (toString n).toList) :
    c.isDigit = true := by
  rw [Nat.toString_eq_repr, Nat.toList_repr] at hc
  exact Nat.isDigit_of_mem_toDigits (by decide) (by decide) hc

/-- A numeral may stand in an identifier. -/
theorem isWord_toString (n : Nat) : IsWord (toString n) := by
  intro c hc
  simp [Simplify.isIdentifierChar, Char.isAlphanum, isDigit_of_mem_toString hc]

theorem isOneLine_repr (i : Int) : isOneLine i.repr = true := by
  cases i with
  | ofNat n => exact isOneLine_toString n
  | negSucc n =>
      rw [Int.repr, isOneLine_append, Bool.and_eq_true]
      exact ⟨isOneLine_ofList (by decide), isOneLine_toString n.succ⟩

/-- The name of a type is an identifier. -/
theorem isWord_cType (kind : NumberKind) (width : Nat) : IsWord (cType kind width) := by
  cases kind with
  | integer =>
      have hfront : IsWord "int" := isWord_ofList (by decide)
      exact (hfront.append (isWord_toString width)).append (isWord_ofList (by decide))
  | float =>
      rw [cType]
      split
      · exact isWord_ofList (by decide)
      · exact isWord_ofList (by decide)

/-- A helper's name is an identifier: words around the name of a type. -/
theorem isWord_append_cName {cs : List Char} (t : NumberType)
    (h : cs.all Simplify.isIdentifierChar = true) :
    IsWord (String.ofList cs ++ t.cName) :=
  (isWord_ofList h).append (isWord_cType _ _)

section Tidy

variable (t u : NumberType)

@[simp] theorem isOneLine_cName : isOneLine t.cName = true := isOneLine_of_isWord (isWord_cType _ _)

@[simp] theorem isOneLine_longCName : isOneLine t.longCName = true :=
  isOneLine_of_isWord (isWord_cType _ _)

@[simp] theorem isOneLine_boundWord : isOneLine (boundWord t) = true :=
  isOneLine_of_isWord (isWord_cType _ _).upper

theorem isOneLine_twoValues : isOneLine s!"{t.cName} a, {t.cName} b" = true := by
  simp only [toString, isOneLine_append, isOneLine_cName, Bool.true_and, Bool.and_true,
    Bool.and_eq_true]
  and_intros <;> exact isOneLine_ofList (by decide)

theorem isOneLine_scaledNumber :
    isOneLine s!"{t.longCName} number, int scale_factor, int round_mode" = true := by
  simp only [toString, isOneLine_append, isOneLine_longCName, Bool.true_and]
  exact isOneLine_ofList (by decide)

theorem tidy_minFunction : (minFunction t).Tidy where
  result := isWord_cType _ _
  name := isWord_append_cName t (by decide)
  parameters := isOneLine_twoValues t
  body := (oneLine_line _).trans (isOneLine_ofList (by decide))

theorem tidy_maxFunction : (maxFunction t).Tidy where
  result := isWord_cType _ _
  name := isWord_append_cName t (by decide)
  parameters := isOneLine_twoValues t
  body := (oneLine_line _).trans (isOneLine_ofList (by decide))

theorem tidy_scaleFunction : (scaleFunction t).Tidy where
  result := isWord_cType _ _
  name := isWord_append_cName t (by decide)
  parameters := isOneLine_scaledNumber t
  body := by
    rw [scaleFunction]
    cases t.kind with
    | integer =>
        simp only [when, toString, oneLine_append, oneLine_braced, oneLine_lines, oneLine_line,
          isOneLine_append, isOneLine_longCName, List.all_cons, List.all_nil, Bool.and_true,
          Bool.and_eq_true]
        and_intros <;> exact isOneLine_ofList (by decide)
    | float =>
        simp only [oneLine_lines, List.all_cons, List.all_nil, Bool.and_true, Bool.and_eq_true]
        and_intros <;> exact isOneLine_ofList (by decide)

theorem tidy_clampFunction : (clampFunction t).Tidy where
  result := isWord_cType _ _
  name := isWord_append_cName t (by decide)
  parameters := by
    simp only [clampFunction, toString, isOneLine_append, isOneLine_longCName, Bool.true_and]
    exact isOneLine_ofList (by decide)
  body := by
    rw [clampFunction]
    cases t.kind with
    | integer =>
        simp only [when, toString, oneLine_append, oneLine_braced, oneLine_line, isOneLine_append,
          isOneLine_cName, isOneLine_boundWord, Bool.and_true, Bool.and_eq_true]
        and_intros <;> exact isOneLine_ofList (by decide)
    | float =>
        simp only [toString, oneLine_line, isOneLine_append, isOneLine_cName, Bool.and_true,
          Bool.and_eq_true]
        and_intros <;> exact isOneLine_ofList (by decide)

theorem tidy_scaleAndClampFunction : (scaleAndClampFunction t).Tidy where
  result := isWord_cType _ _
  name := isWord_append_cName t (by decide)
  parameters := isOneLine_scaledNumber t
  body := by
    simp only [scaleAndClampFunction, toString, oneLine_line, isOneLine_append, isOneLine_cName,
      Bool.and_true, Bool.and_eq_true]
    and_intros <;> exact isOneLine_ofList (by decide)

/-- Each helper of a type is tidy. -/
theorem tidy_helperFunctions : ∀ f ∈ helperFunctions t, f.Tidy :=
  List.forall_iff_forall_mem.mp ⟨tidy_minFunction t, tidy_maxFunction t, tidy_scaleFunction t,
    tidy_clampFunction t, tidy_scaleAndClampFunction t⟩

theorem isOneLine_convertedElement : isOneLine (convertedElement t u) = true := by
  rw [convertedElement]
  split
  all_goals
    simp only [toString, isOneLine_append, isOneLine_cName, isOneLine_longCName, Bool.and_true,
      Bool.and_eq_true]
    and_intros <;> exact isOneLine_ofList (by decide)

/-- A conversion between two types is tidy. -/
theorem tidy_conversionFunction : (conversionFunction t u).Tidy where
  result := isWord_ofList (by decide)
  name := ((isWord_cType _ _).append (isWord_ofList (by decide))).append (isWord_cType _ _)
  parameters := by
    simp only [conversionFunction, toString, isOneLine_append, isOneLine_cName, Bool.and_true,
      Bool.and_eq_true]
    and_intros <;> exact isOneLine_ofList (by decide)
  body := by
    have hcast : oneLine (if t.kind = u.kind then line "(void)scale_factor;" else []) = true := by
      split
      · exact (oneLine_line _).trans (isOneLine_ofList (by decide))
      · rfl
    simp only [conversionFunction, count, toString, oneLine_append, oneLine_braced, oneLine_line,
      hcast, isOneLine_append, isOneLine_convertedElement, Bool.and_true, Bool.and_eq_true]
    and_intros <;> exact isOneLine_ofList (by decide)

end Tidy

/-! ## The header -/

theorem defines_blank : Defines blank [] := ⟨by decide, by decide⟩

/-- The bounds of a type are directives. -/
theorem defines_boundLines (t : NumberType) : Defines (boundLines t) [] := by
  rw [boundLines]
  cases t.kind with
  | integer =>
      simp only [toString, String.append_assoc]
      refine defines_lines ⟨?_, ?_⟩
      · refine isDirective_append (by decide) ?_
        simp only [isOneLine_append, isOneLine_boundWord, isOneLine_repr, Bool.true_and,
          Bool.and_eq_true]
        and_intros <;> exact isOneLine_ofList (by decide)
      · refine isDirective_append (by decide) ?_
        simp only [isOneLine_append, isOneLine_boundWord, isOneLine_repr, Bool.true_and,
          Bool.and_true]
        exact isOneLine_ofList (by decide)
  | float =>
      simp only [toString, String.append_assoc]
      refine defines_lines ⟨?_, ?_⟩ <;>
      · refine isDirective_append (by decide) ?_
        simp only [isOneLine_append, isOneLine_boundWord, Bool.true_and]
        exact isOneLine_ofList (by decide)

/-- Functions written with blank lines between them define their names. -/
theorem defines_spaced {fs : List InlineFunction} (h : ∀ f ∈ fs, f.Tidy) :
    Defines (spaced fs) (fs.map InlineFunction.name) := by
  rw [List.map_eq_flatMap]
  exact Defines.flatMap fun f hf => defines_blank.append (h f hf).defines

/-- The section of a type defines its helpers. -/
theorem defines_typeSection (t : NumberType) :
    Defines (typeSection t) ((helperFunctions t).map InlineFunction.name) :=
  (defines_blank.append (defines_boundLines t)).append (defines_spaced (tidy_helperFunctions t))

/-- Every conversion of the header is tidy. -/
theorem tidy_conversionFunctions (ts : List NumberType) : ∀ f ∈ conversionFunctions ts, f.Tidy := by
  intro f hf
  simp only [conversionFunctions, List.mem_flatMap, List.mem_map] at hf
  obtain ⟨t, _, u, _, rfl⟩ := hf
  exact tidy_conversionFunction t u

theorem defines_includes : Defines (includes ["defines.h"]) [] := by
  have hfile : IsDirective ("#include \"" ++ ("defines.h" ++ "\"")) := by
    refine isDirective_append (by decide) ?_
    rw [isOneLine_append, Bool.and_eq_true]
    exact ⟨isOneLine_ofList (by decide), isOneLine_ofList (by decide)⟩
  have hlines : Defines (lines ["#ifndef SINGLE_FILE", "#include \"" ++ ("defines.h" ++ "\""),
      "#endif"]) [] :=
    defines_lines ⟨isDirective_ofList (by decide), hfile, isDirective_ofList (by decide)⟩
  rw [← String.append_assoc] at hlines
  exact hlines

/-- The header of the number types defines its functions, in order. -/
theorem definitions_numberHeader (types : NumberTypes) :
    definitions (render (numberHeader types)) =
      (numberFunctions types).map InlineFunction.name := by
  have hnames : (numberFunctions types).map InlineFunction.name =
      [] ++ [] ++ [] ++ (distinctTypes [] types.toList).flatMap (fun t =>
        (helperFunctions t).map InlineFunction.name) ++
      (conversionFunctions (distinctTypes [] types.toList)).map InlineFunction.name ++ [] := by
    simp [numberFunctions, List.map_flatMap]
  rw [hnames]
  refine Defines.definitions_eq (((((defines_lines ?_).append defines_includes).append
    (defines_lines ?_)).append (.flatMap fun t _ => defines_typeSection t)).append
    (defines_spaced (tidy_conversionFunctions _)) |>.append (defines_lines ?_))
  · and_intros <;> exact isDirective_ofList (by decide)
  · and_intros
    iterate 7 exact isDirective_ofList (by decide)
    -- the macros of several arguments are written in two pieces
    all_goals exact isDirective_append (by decide) (isOneLine_ofList (by decide))
  · and_intros <;> exact isDirective_ofList (by decide)

end NeuralC.C
