import Mathlib
import NeuralC.Proofs.Compile.Paths
import NeuralC.Proofs.Text.Fields

/-!
# NeuralC.Proofs.Compile.Macros

Macros of the generated headers, read from their text.  `guardOf?` reads the
macro that guards a header, and `sizeMacros` reads those that a text defines for
the sizes of layers.  Both are formed from names in upper case: identifiers have
one upper case exactly when they differ in case only (`IsWord.upper_eq_iff`).

The header of the sizes is put together from lines of several origins.  Only
those of the layers define sizes (`definesSizes_defines`).
-/

namespace NeuralC

/-! ## Case -/

/-- The characters of identifiers are in ASCII. -/
theorem Simplify.toNat_lt_of_isIdentifierChar {c : Char} (hc : isIdentifierChar c = true) :
    c.toNat < 128 := by
  simp only [isIdentifierChar, Char.isAlphanum, Char.isAlpha, Char.isUpper, Char.isLower,
    Char.isDigit, Bool.or_eq_true, Bool.and_eq_true, decide_eq_true_eq, beq_iff_eq, ge_iff_le,
    UInt32.le_iff_toNat_le] at hc
  rw [← Char.toNat_val]
  rcases hc with ((⟨-, hc⟩ | ⟨-, hc⟩) | ⟨-, hc⟩) | rfl
  · exact hc.trans_lt (by decide)
  · exact hc.trans_lt (by decide)
  · exact hc.trans_lt (by decide)
  · decide

/-- A word is put in upper case letter by letter. -/
theorem IsWord.toList_upper {name : String} (hname : IsWord name) :
    (Text.upper name).toList = name.toList.map Char.toUpper := by
  have hchar : ∀ c ∈ name.toList, Text.upperChar c = [c.toUpper] := fun c hc =>
    if_pos (Simplify.toNat_lt_of_isIdentifierChar (hname c hc))
  rw [Text.upper, String.toList_ofList, List.flatMap_congr hchar, List.map_eq_flatMap]

/-- Identifiers in upper case are the same when they are but for case. -/
theorem IsWord.upper_eq_iff {a b : String} (ha : IsWord a) (hb : IsWord b) :
    Text.upper a = Text.upper b ↔ a.toLower = b.toLower := by
  have hlower {name : String} (hname : IsWord name) :
      name.toLower.toList = (Text.upper name).toList.map Char.toLower := by
    rw [String.toLower, String.toList_map, hname.toList_upper, List.map_map]
    exact List.map_congr_left fun c _ => (Char.toLower_toUpper_eq_toLower c).symm
  have hupper {name : String} (hname : IsWord name) :
      (Text.upper name).toList = name.toLower.toList.map Char.toUpper := by
    rw [String.toLower, String.toList_map, hname.toList_upper, List.map_map]
    exact List.map_congr_left fun c _ => (Char.toUpper_toLower_eq_toUpper c).symm
  rw [← String.toList_inj, ← String.toList_inj]
  constructor
  · intro h
    rw [hlower ha, hlower hb, h]
  · intro h
    rw [hupper ha, hupper hb, h]

theorem IsWord.append {a b : String} (ha : IsWord a) (hb : IsWord b) : IsWord (a ++ b) := by
  intro c hc
  rw [String.toList_append] at hc
  exact (List.mem_append.mp hc).elim (ha c) (hb c)

theorem IsWord.not_mem {name : String} (hname : IsWord name) {c : Char}
    (hc : Simplify.isIdentifierChar c = false) : c ∉ name.toList := by
  intro hmem
  rw [hname c hmem] at hc
  contradiction

/-- A word in upper case is a word. -/
theorem IsWord.upper {name : String} (hname : IsWord name) : IsWord (Text.upper name) := by
  have hall : ∀ n < 128, Simplify.isIdentifierChar (Char.ofNat n) = true →
      Simplify.isIdentifierChar (Char.ofNat n).toUpper = true := by decide
  rw [IsWord, hname.toList_upper]
  simp only [List.mem_map]
  rintro _ ⟨c, hc, rfl⟩
  have hchar := hall c.toNat (Simplify.toNat_lt_of_isIdentifierChar (hname c hc))
  rw [Char.ofNat_toNat] at hchar
  exact hchar (hname c hc)

namespace Emit

open NeuralC.C

theorem isWord_guard {name : String} (hname : IsWord name) : IsWord (guard name) := by
  have hfront : IsWord "_" := by simp [IsWord, Simplify.isIdentifierChar]
  have hback : IsWord "_H_" := by simp [IsWord, Simplify.isIdentifierChar]
  exact (hfront.append hname.upper).append hback

/-- Two guards are equal exactly if the names differ at most in case. -/
theorem guard_eq_iff {a b : String} (ha : IsWord a) (hb : IsWord b) :
    guard a = guard b ↔ a.toLower = b.toLower := by
  rw [← ha.upper_eq_iff hb]
  unfold C.guard
  simp [toString]

/-! ## Directives -/

def textLines (text : String) : List (List Char) := Text.fields '\n' text.toList

/-- The macro that a line names behind a directive. -/
def macroOf? (directive : String) (line : List Char) : Option String :=
  match Text.fields ' ' line with
  | word :: name :: _ => if word = directive.toList then some (String.ofList name) else none
  | _ => none

/-- The macro that guards a header: the first line asks for it and the second defines it. -/
def guardOf? (text : String) : Option String :=
  match textLines text with
  | first :: second :: _ =>
    let asked := macroOf? "#ifndef" first
    if asked = macroOf? "#define" second then asked else none
  | _ => none

/-- The macro that a line defines for a size. -/
def sizeMacro? (line : List Char) : Option String :=
  (macroOf? "#define" line).filter fun name => "_OUTPUT_SIZE".toList.isSuffixOf name.toList

def sizeMacros (text : String) : List String := (textLines text).filterMap sizeMacro?

def isOneLine (text : String) : Bool := text.toList.all (· != '\n')

@[simp] theorem isOneLine_append (a b : String) :
    isOneLine (a ++ b) = (isOneLine a && isOneLine b) := by
  simp [isOneLine]

theorem isOneLine_of_isWord {name : String} (hname : IsWord name) : isOneLine name = true := by
  have hbreak : '\n' ∉ name.toList := hname.not_mem (by decide)
  simp only [isOneLine, List.all_eq_true, bne_iff_ne]
  exact fun c hc h => hbreak (h ▸ hc)

/-- A line that ends is the first of the text's lines. -/
theorem textLines_append {line : String} (hline : isOneLine line = true) (rest : String) :
    textLines (line ++ "\n" ++ rest) = line.toList :: textLines rest := by
  have hpiece : ∀ c ∈ line.toList, c ≠ '\n' := by simpa [isOneLine] using hline
  rw [textLines, String.toList_append, String.toList_append, List.append_assoc]
  exact Text.fields_append hpiece rest.toList

/-- Lines are read as they are written. -/
theorem textLines_render {texts : List String} (htexts : texts.all isOneLine = true)
    (rest : String) :
    textLines (render (lines texts) ++ rest) = texts.map String.toList ++ textLines rest := by
  induction texts with
  | nil => simp [render, lines]
  | cons t texts ih =>
      rw [List.all_cons, Bool.and_eq_true] at htexts
      have hline : render (lines (t :: texts)) = t ++ "\n" ++ render (lines texts) := by
        by_cases hempty : t = "" <;> simp [render, lines, Line.render, hempty]
      rw [hline, String.append_assoc, textLines_append htexts.1, ih htexts.2, List.map_cons,
        List.cons_append]

/-- A directive with a name after it defines that name. -/
theorem macroOf?_append (directive : String) {name : String} (hdirective : ' ' ∉ directive.toList)
    (hname : IsWord name) {rest : List Char} (hrest : rest = [] ∨ ∃ more, rest = ' ' :: more) :
    macroOf? directive (directive.toList ++ ' ' :: (name.toList ++ rest)) = some name := by
  have hfirst : ∀ c ∈ directive.toList, c ≠ ' ' := fun c hc h => hdirective (h ▸ hc)
  have hsecond : ∀ c ∈ name.toList, c ≠ ' ' := fun c hc h => hname.not_mem (by decide) (h ▸ hc)
  rw [macroOf?, Text.fields_append hfirst]
  rcases hrest with rfl | ⟨more, rfl⟩
  · simp [Text.fields_eq_singleton hsecond]
  · simp [Text.fields_append hsecond]

/-- A line of another directive names no macro. -/
theorem macroOf?_of_ne {directive word : String} (hword : ' ' ∉ word.toList)
    (hne : word ≠ directive) (rest : List Char) :
    macroOf? directive (word.toList ++ ' ' :: rest) = none := by
  have hfirst : ∀ c ∈ word.toList, c ≠ ' ' := fun c hc h => hword (h ▸ hc)
  obtain ⟨name, more, hrest⟩ := List.exists_cons_of_ne_nil (Text.fields_ne_nil ' ' rest)
  rw [macroOf?, Text.fields_append hfirst, hrest]
  simp [String.toList_inj, hne]

/-- A header under a guard is read as one. -/
theorem guardOf?_render {name : String} (hname : IsWord name) (rest : Code) :
    guardOf? (render (lines (guardLines name) ++ rest)) = some (guard name) := by
  have hguard := isWord_guard hname
  have hlines : (guardLines name).all isOneLine = true := by
    have hone := isOneLine_of_isWord hguard
    have hasks : isOneLine "#ifndef " = true := by decide
    have hdefines : isOneLine "#define " = true := by decide
    simpa [guardLines, toString, hasks, hdefines, hone] using (by decide : isOneLine "" = true)
  have hasked := macroOf?_append "#ifndef" (by decide) hguard (.inl rfl)
  have hdefined := macroOf?_append "#define" (by decide) hguard (.inl rfl)
  rw [guardOf?, render_append, textLines_render hlines]
  simp_all [guardLines, toString]

/-! ## Sizes -/

/-- The names of the layers that files are generated for. -/
def computedNames (ns : List Node) : List String :=
  (ns.filter fun n => !n.layer.isInput).map Node.name

def sizeName (name : String) : String := Text.upper name ++ "_OUTPUT_SIZE"

/-- Two size macros are equal exactly if the names differ at most in case. -/
theorem sizeName_eq_iff {a b : String} (ha : IsWord a) (hb : IsWord b) :
    sizeName a = sizeName b ↔ a.toLower = b.toLower := by
  rw [← ha.upper_eq_iff hb, sizeName, sizeName, String.append_left_inj]

theorem isWord_sizeName {name : String} (hname : IsWord name) : IsWord (sizeName name) :=
  hname.upper.append (by simp [IsWord, Simplify.isIdentifierChar])

theorem isOneLine_toString (n : Nat) : isOneLine (toString n) = true := by
  simp only [isOneLine, List.all_eq_true, bne_iff_ne, Nat.toString_eq_repr, Nat.toList_repr]
  rintro c hc rfl
  have hdigit := Nat.isDigit_of_mem_toDigits (by decide) (by decide) hc
  contradiction

def sizeLine (n : Node) : String :=
  s!"#define {Text.upper n.name}_OUTPUT_SIZE {n.layer.outputElements}"

theorem toList_sizeLine (n : Node) : (sizeLine n).toList =
    "#define".toList ++ ' ' :: ((sizeName n.name).toList ++
      ' ' :: (toString n.layer.outputElements).toList) := by
  simp [sizeLine, sizeName, toString]

theorem isOneLine_sizeLine {n : Node} (hn : IsWord n.name) : isOneLine (sizeLine n) = true := by
  have hname := isOneLine_of_isWord (isWord_sizeName hn)
  have hcount := isOneLine_toString n.layer.outputElements
  rw [isOneLine] at hname hcount ⊢
  rw [toList_sizeLine, List.all_append, List.all_cons, List.all_append, List.all_cons, hname,
    hcount]
  decide

/-- The line of a layer defines its size macro. -/
theorem sizeMacro?_sizeLine {n : Node} (hn : IsWord n.name) :
    sizeMacro? (sizeLine n).toList = some (sizeName n.name) := by
  have hsize : "_OUTPUT_SIZE".toList <:+ (sizeName n.name).toList :=
    ⟨(Text.upper n.name).toList, by simp [sizeName]⟩
  rw [sizeMacro?, toList_sizeLine, macroOf?_append "#define" (by decide) (isWord_sizeName hn)
    (.inr ⟨_, rfl⟩), Option.filter_some, List.isSuffixOf_iff_suffix.mpr hsize]
  rfl

theorem isOneLine_roundMode (mode : RoundMode) : isOneLine mode.name = true := by
  cases mode <;> decide

/-- What is said of two roundings is an error on one line. -/
theorem roundClash_eq (first firstLayer what layer : String) :
    ∃ (start : String) (cs : List Char), roundClash first firstLayer what layer =
        start ++ (first ++ " for " ++ firstLayer ++ " and " ++ what ++ " for " ++ layer ++ "\"") ∧
      start.toList = cs ∧ cs.all (· != '\n') = true ∧ cs = "#error".toList ++ ' ' :: cs.drop 7 :=
  ⟨_, _, rfl, String.toList_ofList, by decide +kernel, by decide +kernel⟩

theorem isOneLine_roundClash {first firstLayer what layer : String}
    (hfirst : isOneLine first = true) (hfirstLayer : isOneLine firstLayer = true)
    (hwhat : isOneLine what = true) (hlayer : isOneLine layer = true) :
    isOneLine (roundClash first firstLayer what layer) = true := by
  obtain ⟨start, cs, heq, hcs, hall, _⟩ := roundClash_eq first firstLayer what layer
  have hstart : isOneLine start = true := by rw [isOneLine, hcs, hall]
  simp only [heq, isOneLine_append, hstart, hfirst, hfirstLayer, hwhat, hlayer]
  decide

/-- A warning about round modes defines none. -/
theorem sizeMacro?_roundClash (first firstLayer what layer : String) :
    sizeMacro? (roundClash first firstLayer what layer).toList = none := by
  obtain ⟨start, cs, heq, hcs, _, herror⟩ := roundClash_eq first firstLayer what layer
  rw [heq, String.toList_append, hcs, herror, List.append_assoc, List.cons_append, sizeMacro?,
    macroOf?_of_ne (by decide) (by decide), Option.filter_none]

/-- The lines of a clash define nothing. -/
theorem roundClashes_plain {layer : String} (hlayer : IsWord layer) (first : Option RoundMode)
    {n : Node} (hn : IsWord n.name) {text : String} (htext : text ∈ roundClashes layer first n) :
    isOneLine text = true ∧ sizeMacro? text.toList = none := by
  have hclash : ∃ what, isOneLine what = true ∧
      text = roundClash (roundName first) layer what n.name := by
    unfold roundClashes at htext
    dsimp only at htext
    rcases List.mem_append.mp htext with htext | htext
    · obtain ⟨_, rfl⟩ := by simpa using htext
      exact ⟨_, isOneLine_roundMode _, rfl⟩
    · split at htext
      · contradiction
      · next weights _ =>
        obtain ⟨_, rfl⟩ := by simpa using htext
        refine ⟨_, ?_, rfl⟩
        show isOneLine ("weights_round_mode " ++ weights.name) = true
        rw [isOneLine_append, isOneLine_roundMode]
        decide
  obtain ⟨what, hwhat, rfl⟩ := hclash
  exact ⟨isOneLine_roundClash (isOneLine_roundMode _) (isOneLine_of_isWord hlayer) hwhat
    (isOneLine_of_isWord hn), sizeMacro?_roundClash _ _ _ _⟩

/-- The lines define the macros for sizes, in order. -/
structure DefinesSizes (texts macros : List String) : Prop where
  oneLine : texts.all isOneLine = true
  eq_macros : (texts.filterMap fun text => sizeMacro? text.toList) = macros

/-- Lines put together define the sizes of both. -/
theorem DefinesSizes.append {texts texts' macros macros' : List String}
    (h : DefinesSizes texts macros) (h' : DefinesSizes texts' macros') :
    DefinesSizes (texts ++ texts') (macros ++ macros') where
  oneLine := by rw [List.all_append, h.oneLine, h'.oneLine, Bool.and_self]
  eq_macros := by rw [List.filterMap_append, h.eq_macros, h'.eq_macros]

/-- The sizes that lines define are read back from the text. -/
theorem DefinesSizes.sizeMacros_eq {texts macros : List String} (h : DefinesSizes texts macros) :
    sizeMacros (render (lines texts)) = macros := by
  have hlines := textLines_render h.oneLine ""
  have hend : (textLines "").filterMap sizeMacro? = [] := by decide
  rw [String.append_empty] at hlines
  rw [sizeMacros, hlines, List.filterMap_append, List.filterMap_map, hend, List.append_nil]
  exact h.eq_macros

theorem definesSizes_nil {texts : List String}
    (htexts : ∀ text ∈ texts, isOneLine text = true ∧ sizeMacro? text.toList = none) :
    DefinesSizes texts [] where
  oneLine := List.all_eq_true.mpr fun text htext => (htexts text htext).1
  eq_macros := List.filterMap_eq_nil_iff.mpr fun text htext => (htexts text htext).2

/-- Fixed lines are read character by character. -/
theorem definesSizes_of_toList {texts : List String} {css : List (List Char)}
    (htexts : List.Forall₂ (fun text cs => text.toList = cs) texts css)
    (hone : css.all (·.all (· != '\n')) = true) (hnone : css.filterMap sizeMacro? = []) :
    DefinesSizes texts [] := by
  obtain rfl : texts.map String.toList = css := by
    rw [← List.forall₂_eq_eq_eq]
    exact List.forall₂_map_left_iff.mpr htexts
  rw [List.all_map] at hone
  rw [List.filterMap_map] at hnone
  exact ⟨hone, hnone⟩

/-- The number of pools is no size of a layer. -/
theorem definesSizes_pools (n : Nat) :
    DefinesSizes [s!"#define MODEL_ACTIVATION_POOLS {n}"] [] := by
  have hword : IsWord "MODEL_ACTIVATION_POOLS" := by simp [IsWord, Simplify.isIdentifierChar]
  have htext : (s!"#define MODEL_ACTIVATION_POOLS {n}").toList =
      "#define".toList ++ ' ' :: ("MODEL_ACTIVATION_POOLS".toList ++
        ' ' :: (toString n).toList) := by
    simp [toString]
  refine definesSizes_nil fun text hmem => ?_
  rw [List.mem_singleton.mp hmem]
  constructor
  · show isOneLine ("#define MODEL_ACTIVATION_POOLS " ++ toString n) = true
    rw [isOneLine_append, isOneLine_toString]
    decide
  · rw [sizeMacro?, htext, macroOf?_append "#define" (by decide) hword (.inr ⟨_, rfl⟩)]
    decide

/-- The lines of the layers define one size for each computed layer. -/
theorem definesSizes_layers {ns : List Node} (hwords : ∀ n ∈ ns, IsWord n.name) :
    DefinesSizes ((ns.filter fun n => !n.layer.isInput).map sizeLine)
      ((computedNames ns).map sizeName) := by
  have hlayers : ∀ n ∈ ns.filter fun n => !n.layer.isInput, IsWord n.name := fun n hn =>
    hwords n (List.mem_filter.mp hn).1
  rw [computedNames, List.map_map]
  generalize (ns.filter fun n => !n.layer.isInput) = layers at hlayers ⊢
  induction layers with
  | nil => exact ⟨rfl, rfl⟩
  | cons n layers ih =>
      have hn := hlayers n List.mem_cons_self
      have hfirst : DefinesSizes [sizeLine n] [sizeName n.name] :=
        ⟨by simp [isOneLine_sizeLine hn], by simp [sizeMacro?_sizeLine hn]⟩
      exact hfirst.append (ih fun m hm => hlayers m (List.mem_cons_of_mem n hm))

/-- The checks of round modes define no size. -/
theorem definesSizes_roundClashes {layer : String} (hlayer : IsWord layer)
    (first : Option RoundMode) {ns : List Node} (hwords : ∀ n ∈ ns, IsWord n.name) :
    DefinesSizes (ns.flatMap (roundClashes layer first)) [] := by
  refine definesSizes_nil fun text htext => ?_
  obtain ⟨n, hn, htext⟩ := List.mem_flatMap.mp htext
  exact roundClashes_plain hlayer first (hwords n hn) htext

theorem definesSizes_roundChoice (mode : Option RoundMode) :
    DefinesSizes (roundChoice mode) [] := by
  cases mode with
  | none =>
      exact definesSizes_of_toList (.cons String.toList_ofList .nil) (by decide +kernel)
        (by decide +kernel)
  | some mode =>
      cases mode with
      | unset =>
          exact definesSizes_of_toList (.cons String.toList_ofList .nil) (by decide +kernel)
            (by decide +kernel)
      | floor | nearest =>
          exact definesSizes_of_toList (.cons String.toList_ofList
            (.cons String.toList_ofList .nil)) (by decide +kernel) (by decide +kernel)

theorem eq_sizeLine {n : Node} {text : String} (h : C.sizeLine n = .ok text) :
    sizeLine n = text := by
  obtain ⟨elements, helements, htext⟩ := bind_eq_ok.mp h
  obtain ⟨-, rfl⟩ := Shape.count_eq_ok.mp helements
  injection htext

/-- The lines that could be counted are those of the layers. -/
theorem map_sizeLine_of_mapM {ns : List Node} {sizes : List String}
    (h : ns.mapM C.sizeLine = .ok sizes) : ns.map sizeLine = sizes := by
  rw [← List.forall₂_eq_eq_eq, List.forall₂_map_left_iff]
  exact (mapM_eq_ok.mp h).imp fun _ _ => eq_sizeLine

/-- The header of the sizes defines one macro for each layer. -/
theorem definesSizes_defines {s : Scope} {code : Code} {ns : List Node}
    (hcode : defines s = .ok code) (hns : s.graph.nodes = .ok ns)
    (hwords : ∀ n ∈ ns, IsWord n.name) :
    ∃ texts, code = lines texts ∧ DefinesSizes texts ((computedNames ns).map sizeName) := by
  have hcomputed : computed s.graph = .ok (ns.filter fun n => !n.layer.isInput) := by
    rw [computed, hns]
    rfl
  have hfirst : IsWord ((ns.head?.map Node.name).getD "") := by
    cases ns with
    | nil => simp [IsWord]
    | cons n ns => exact hwords n List.mem_cons_self
  have hguard : DefinesSizes ["#ifndef _DEFINES_H_", "#define _DEFINES_H_", ""] [] :=
    definesSizes_of_toList (.cons String.toList_ofList (.cons String.toList_ofList
      (.cons String.toList_ofList .nil))) (by decide +kernel) (by decide +kernel)
  have hround : DefinesSizes ["", "/* CMSIS-NN round mode definition */",
      "#if defined(WITH_CMSIS_NN) || defined(WITH_NMSIS_NN)"] [] :=
    definesSizes_of_toList (.cons String.toList_ofList (.cons String.toList_ofList
      (.cons String.toList_ofList .nil))) (by decide +kernel) (by decide +kernel)
  have hend : DefinesSizes ["#endif // defined(WITH_CMSIS_NN) || defined(WITH_NMSIS_NN)", "",
      "#endif // _DEFINES_H_"] [] :=
    definesSizes_of_toList (.cons String.toList_ofList (.cons String.toList_ofList
      (.cons String.toList_ofList .nil))) (by decide +kernel) (by decide +kernel)
  have hwhole := (((((hguard.append (definesSizes_pools s.plan.pools.length)).append
    (definesSizes_layers hwords)).append hround).append (definesSizes_roundClashes hfirst
    ((ns.head?.bind (·.quant)).bind (·.outputRound)) hwords)).append
    (definesSizes_roundChoice ((ns.head?.bind (·.quant)).bind (·.outputRound)))).append hend
  obtain ⟨nodes, hnodes, hcode⟩ := bind_eq_ok.mp hcode
  obtain rfl : ns = nodes := Except.ok.inj (hns.symm.trans hnodes)
  obtain ⟨layers, hlayers, hcode⟩ := bind_eq_ok.mp hcode
  obtain rfl := Except.ok.inj (hcomputed.symm.trans hlayers)
  obtain ⟨sizes, hsizes, hcode⟩ := bind_eq_ok.mp hcode
  obtain rfl := map_sizeLine_of_mapM hsizes
  injection hcode with hcode
  refine ⟨_, hcode.symm, ?_⟩
  simp only [List.nil_append, List.append_nil, List.cons_append] at hwhole ⊢
  exact hwhole

end Emit

end NeuralC
