import Mathlib.Data.List.Induction
import Mathlib.Data.List.Nodup
import NeuralC.Model.Parse
import NeuralC.Proofs.Model.Written
import NeuralC.Proofs.Text.Fields

/-!
# NeuralC.Proofs.Model.Document

A model description as a whole.  `layersOf` and `weightsOf` are what the lines
of a text state, each line taken by itself; `declarations_eq_ok_iff` says that
a text is read exactly when each of its lines is and no weight is given twice,
and that what is read are the statements of its lines.

With the lines of `Written` this makes the reader the inverse of the documented
format: `document` joins lines, and what is read of it is what its lines were
written for, as long as the elements of its weights can be counted
(`declarations_document`).
-/

namespace NeuralC

namespace Text

/-! ## Lines -/

theorem trim_concat_of_blank {c : Char} (hc : isBlank c = true) (cs : List Char) :
    trim (cs ++ [c]) = trim cs := by
  have hend (as : List Char) : trimEnd (as ++ [c]) = trimEnd as := by
    rw [trimEnd, List.reverse_concat, List.dropWhile_cons_of_pos hc, trimEnd]
  rw [trim, trim, trimStart, trimStart, List.dropWhile_append]
  split
  · next hempty =>
    rw [List.isEmpty_iff.1 hempty, List.dropWhile_cons_of_pos hc, List.dropWhile_nil]
  · exact hend _

/-- A line is without its carriage return what stood in front of it, if it ended in one. -/
theorem dropReturn_cases (raw : List Char) :
    dropReturn raw = raw ∨ ∃ front, raw = front ++ ['\r'] ∧ dropReturn raw = front := by
  rw [dropReturn]
  split
  · next hlast =>
    obtain ⟨front, rfl⟩ := List.getLast?_eq_some_iff.1 hlast
    exact .inr ⟨front, rfl, List.dropLast_concat⟩
  · exact .inl rfl

end Text

namespace Model

open NeuralC.Text

/-! ## Statements of lines -/

/-- A blank at the end is no content. -/
theorem content_concat_of_blank {c : Char} (hc : isBlank c = true) (cs : List Char) :
    content (cs ++ [c]) = content cs := by
  have hne : c ≠ ';' := by
    rintro rfl
    exact absurd hc (by decide)
  rw [content, content, List.takeWhile_append]
  split
  · next hall =>
    have hself : cs.takeWhile (· ≠ ';') = cs := (List.takeWhile_prefix _).eq_of_length hall
    have hlast : [c].takeWhile (· ≠ ';') = [c] := by simp [hne]
    rw [hself, hlast, trim_concat_of_blank hc]
  · rfl

/-- A carriage return at the end of a line does not matter. -/
theorem readLine_dropReturn (line : Nat) (raw : List Char) :
    readLine line (dropReturn raw) = readLine line raw := by
  have hcontent : content (dropReturn raw) = content raw := by
    rcases dropReturn_cases raw with hsame | ⟨front, rfl, hfront⟩
    · rw [hsame]
    · rw [hfront, content_concat_of_blank (by decide)]
  rw [readLine, readLine, hcontent]

theorem readLine_nil (line : Nat) : readLine line [] = .ok none := rfl

def declared? : Except Failure (Option Statement) → Option LayerLine
  | .ok (some (.layer l)) => some l
  | _ => none

def given? : Except Failure (Option Statement) → Option WeightLine
  | .ok (some (.weight w)) => some w
  | _ => none

/-- What is wrong with a line, if anything is. -/
def fault? : Except Failure (Option Statement) → Option Failure
  | .error e => some e
  | .ok _ => none

section

variable {α : Type} (view : Except Failure (Option Statement) → Option α)

/-- A view of the lines that start at a line number, in their order. -/
def viewed (line : Nat) (raws : List (List Char)) : List α :=
  (raws.zipIdx line).filterMap fun p => view (readLine p.2 p.1)

theorem viewed_cons (line : Nat) (raw : List Char) (raws : List (List Char)) :
    viewed view line (raw :: raws) =
      (view (readLine line raw)).toList ++ viewed view (line + 1) raws := by
  rw [viewed, List.zipIdx_cons, List.filterMap_cons]
  cases view (readLine line raw) <;> rfl

/-- A view of two texts is that of one after the other, with the lines counted on. -/
theorem viewed_append (line : Nat) (front back : List (List Char)) :
    viewed view line (front ++ back) =
      viewed view line front ++ viewed view (line + front.length) back := by
  rw [viewed, List.zipIdx_append, List.filterMap_append]
  rfl

/-- Carriage returns at line ends change no view. -/
theorem viewed_map_dropReturn (line : Nat) (raws : List (List Char)) :
    viewed view line (raws.map dropReturn) = viewed view line raws := by
  induction raws generalizing line with
  | nil => rfl
  | cons raw raws ih => rw [List.map_cons, viewed_cons, viewed_cons, readLine_dropReturn, ih]

/-- Neither a carriage return nor an empty last line is seen by a view that
blank lines do not show in. -/
theorem viewed_lines (hblank : view (.ok none) = none) (line : Nat) (cs : List Char) :
    viewed view line (lines cs) = viewed view line (fields '\n' cs) := by
  obtain ⟨front, last, hfields⟩ : ∃ front last, fields '\n' cs = front ++ [last] :=
    (List.eq_nil_or_concat' _).resolve_left (fields_ne_nil '\n' cs)
  have hlast : viewed view (line + front.length) ((some last).filter (! ·.isEmpty)).toList =
      viewed view (line + front.length) [last] := by
    cases last with
    | nil =>
        rw [viewed_cons, readLine_nil, hblank]
        rfl
    | cons c cs => rfl
  rw [lines, hfields, List.dropLast_concat, List.getLast?_concat, viewed_append, viewed_append,
    viewed_map_dropReturn, List.length_map, hlast]

end

/-- The layers that a text declares. -/
def layersOf (text : String) : List LayerLine := viewed declared? 1 (lines text.toList)

def weightsOf (text : String) : List WeightLine := viewed given? 1 (lines text.toList)

/-- What is wrong with single lines of a text. -/
def faultsOf (text : String) : List Failure := viewed fault? 1 (lines text.toList)

/-- What a weight is given for. -/
def WeightLine.target (w : WeightLine) : String × String := (w.layer, w.role)

/-- A weight is found exactly if a line targets it. -/
theorem isSome_weight?_iff {weights : List WeightLine} {w : WeightLine} :
    (weight? weights w.layer w.role).isSome = true ↔ w.target ∈ weights.map WeightLine.target := by
  simp [weight?, WeightLine.target]

/-- Lines are read when each of them is and no weight is given twice; then
their statements are recorded in their order. -/
theorem readLines_eq_ok_iff {d d' : Declarations} {line : Nat} {raws : List (List Char)}
    (hd : (d.weights.map WeightLine.target).Nodup) :
    readLines d line raws = .ok d' ↔
      viewed fault? line raws = [] ∧
        d' = ⟨d.layers ++ viewed declared? line raws, d.weights ++ viewed given? line raws⟩ ∧
        (d'.weights.map WeightLine.target).Nodup := by
  induction raws generalizing d line with
  | nil =>
      simp only [readLines, viewed, List.zipIdx_nil, List.filterMap_nil, List.append_nil,
        Except.ok.injEq, true_and]
      constructor
      · rintro rfl
        exact ⟨rfl, hd⟩
      · exact fun h => h.1.symm
  | cons raw raws ih =>
      rw [viewed_cons, viewed_cons, viewed_cons, readLines]
      cases hraw : readLine line raw with
      | error e => simp [fault?]
      | ok found =>
          cases found with
          | none => simpa [fault?, declared?, given?] using ih hd
          | some s =>
              cases s with
              | layer l =>
                  simpa [fault?, declared?, given?, Declarations.add] using
                    ih (d := ⟨d.layers ++ [l], d.weights⟩) hd
              | weight w =>
                  by_cases hmem : w.target ∈ d.weights.map WeightLine.target
                  · -- the second line for a target is refused, and the targets are no set
                    simp only [Declarations.add, if_pos (isSome_weight?_iff.2 hmem), reduceCtorEq,
                      false_iff]
                    rintro ⟨-, rfl, hnodup⟩
                    rw [List.map_append, List.nodup_append'] at hnodup
                    exact hnodup.2.2 hmem (by simp [given?])
                  · have hnext : ((d.weights ++ [w]).map WeightLine.target).Nodup := by
                      rw [List.map_append]
                      exact List.nodup_append'.2 ⟨hd, by simp, by simpa using hmem⟩
                    have hadd := mt isSome_weight?_iff.1 hmem
                    simpa [fault?, declared?, given?, Declarations.add, hadd] using
                      ih (d := ⟨d.layers, d.weights ++ [w]⟩) hnext

/-- A text is read exactly when each of its lines is and no weight is given
twice, and what is read are the statements of its lines. -/
theorem declarations_eq_ok_iff {text : String} {d : Declarations} :
    declarations text = .ok d ↔
      faultsOf text = [] ∧ d = ⟨layersOf text, weightsOf text⟩ ∧
        ((weightsOf text).map WeightLine.target).Nodup := by
  rw [declarations, readLines_eq_ok_iff (by simp), List.nil_append, List.nil_append]
  constructor
  · rintro ⟨hfaults, rfl, hnodup⟩
    exact ⟨hfaults, rfl, hnodup⟩
  · rintro ⟨hfaults, rfl, hnodup⟩
    exact ⟨hfaults, rfl, hnodup⟩

/-! ## Documents -/

/-- Lines as one text, with line ends between them. -/
def document (ls : List SourceLine) : List Char := ['\n'].intercalate (ls.map SourceLine.chars)

def writtenLayers (ls : List SourceLine) : List LayerLine :=
  (ls.zipIdx 1).filterMap fun p =>
    match p.1.content with
    | .layer t => some (t.declared p.2)
    | _ => none

def writtenWeights (ls : List SourceLine) : List WeightLine :=
  (ls.zipIdx 1).filterMap fun p =>
    match p.1.content with
    | .weight t => some (t.declared p.2)
    | _ => none

/-- A view of a document is the view of what its lines were written for. -/
theorem viewed_document {α : Type} {view : Except Failure (Option Statement) → Option α}
    (hblank : view (.ok none) = none) (ls : List SourceLine) :
    viewed view 1 (lines (document ls)) =
      (ls.zipIdx 1).filterMap fun p => view (p.1.content.read p.2) := by
  have hread (line : Nat) (ls : List SourceLine) : viewed view line (ls.map SourceLine.chars) =
      (ls.zipIdx line).filterMap fun p => view (p.1.content.read p.2) := by
    induction ls generalizing line with
    | nil => rfl
    | cons s ls ih =>
        rw [List.map_cons, viewed_cons, s.readLine_chars, ih, List.zipIdx_cons,
          List.filterMap_cons]
        cases view (s.content.read line) <;> rfl
  rw [viewed_lines view hblank]
  cases ls with
  | nil => simp [document, viewed, fields, readLine_nil, hblank]
  | cons s ls =>
      rw [document, List.map_cons, fields_intercalate, ← List.map_cons, hread]
      intro raw hraw
      rw [← List.map_cons, List.mem_map] at hraw
      obtain ⟨s, -, rfl⟩ := hraw
      exact s.ne_newline_of_mem

/-- The layer lines of a written document are those it was written from. -/
theorem layersOf_document (ls : List SourceLine) :
    layersOf (String.ofList (document ls)) = writtenLayers ls := by
  rw [layersOf, String.toList_ofList, viewed_document rfl, writtenLayers]
  congr 1
  funext p
  cases p.1.content with
  | none | layer t => rfl
  | weight t =>
      rw [Content.read]
      split <;> rfl

/-- The shape of a written weight can be counted. -/
theorem counted_of_written {ls : List SourceLine}
    (hcounted : ∀ w ∈ writtenWeights ls, w.shape.Counted) {p : SourceLine × Nat}
    (hp : p ∈ ls.zipIdx 1) {t : WeightText} (hcontent : p.1.content = .weight t) :
    t.shape.shape.Counted :=
  hcounted (t.declared p.2) (List.mem_filterMap.mpr ⟨p, hp, by rw [hcontent]⟩)

/-- A weight that was written is there if its elements can be counted. -/
theorem weightsOf_document {ls : List SourceLine}
    (hcounted : ∀ w ∈ writtenWeights ls, w.shape.Counted) :
    weightsOf (String.ofList (document ls)) = writtenWeights ls := by
  rw [weightsOf, String.toList_ofList, viewed_document rfl, writtenWeights]
  refine List.filterMap_congr fun p hp => ?_
  cases hcontent : p.1.content with
  | none | layer t => rfl
  | weight t =>
      rw [Content.read, if_pos (counted_of_written hcounted hp hcontent)]
      rfl

/-- Nothing is wrong with a document but weights whose elements cannot be counted. -/
theorem faultsOf_document {ls : List SourceLine} :
    faultsOf (String.ofList (document ls)) = [] ↔
      ∀ w ∈ writtenWeights ls, w.shape.Counted := by
  rw [faultsOf, String.toList_ofList, viewed_document rfl, List.filterMap_eq_nil_iff]
  constructor
  · intro hnone w hw
    obtain ⟨p, hp, hwritten⟩ := List.mem_filterMap.mp hw
    have hread := hnone p hp
    split at hwritten
    · next t hcontent =>
      cases hwritten
      by_contra hshape
      rw [hcontent, Content.read, if_neg (by exact hshape)] at hread
      contradiction
    · contradiction
  · intro hcounted p hp
    cases hcontent : p.1.content with
    | none | layer t => rfl
    | weight t =>
        rw [Content.read, if_pos (counted_of_written hcounted hp hcontent)]
        rfl

/-- Among weights for distinct targets, each is found under its own. -/
theorem weight?_of_mem {weights : List WeightLine} (hnodup : (weights.map WeightLine.target).Nodup)
    {w : WeightLine} (hw : w ∈ weights) : weight? weights w.layer w.role = some w := by
  obtain ⟨v, hv⟩ : ∃ v, weight? weights w.layer w.role = some v :=
    Option.isSome_iff_exists.1 (isSome_weight?_iff.2 (List.mem_map_of_mem hw))
  have htarget : v.target = w.target := by
    have hfound := List.find?_some hv
    simpa [WeightLine.target] using hfound
  rw [hv, List.inj_on_of_nodup_map hnodup (List.mem_of_find?_eq_some hv) hw htarget]

/-- Among weights for distinct targets, one is found exactly under its own. -/
theorem weight?_eq_some_iff {weights : List WeightLine}
    (hnodup : (weights.map WeightLine.target).Nodup) {layer role : String} {w : WeightLine} :
    weight? weights layer role = some w ↔ w ∈ weights ∧ w.target = (layer, role) := by
  constructor
  · intro hfound
    have htarget := List.find?_some hfound
    exact ⟨List.mem_of_find?_eq_some hfound, by simpa [WeightLine.target] using htarget⟩
  · rintro ⟨hw, htarget⟩
    obtain ⟨rfl, rfl⟩ := Prod.mk.inj htarget
    exact weight?_of_mem hnodup hw

/-- The reader inverts the documented format.  Whatever blanks and comments
stand in a line, a declaration is read as that declaration.  A weight is read as that
weight, unless a product of leading dimensions of its shape is too large: then the
reading overflows, also where a later dimension is 0.  A document gives the
declarations and weights of its lines exactly when all weights can be counted and
no two lines give the same one, and each weight is found under its layer and role. -/
theorem declarations_document (line : Nat) (lead trail : Gap) (comment : Option Comment)
    (ls : List SourceLine) (d : Declarations) :
    (∀ t : LayerText, readLine line (SourceLine.chars ⟨lead, .layer t, trail, comment⟩) =
      .ok (some (.layer (t.declared line)))) ∧
    (∀ t : WeightText, readLine line (SourceLine.chars ⟨lead, .weight t, trail, comment⟩) =
      if t.shape.shape.Counted then .ok (some (.weight (t.declared line)))
      else .error .overflow) ∧
    (declarations (String.ofList (document ls)) = .ok d ↔
      (∀ w ∈ writtenWeights ls, w.shape.Counted) ∧
        d = ⟨writtenLayers ls, writtenWeights ls⟩ ∧
        ((writtenWeights ls).map WeightLine.target).Nodup) ∧
    (declarations (String.ofList (document ls)) = .ok d →
      ∀ w ∈ writtenWeights ls, weight? d.weights w.layer w.role = some w) := by
  have hread : declarations (String.ofList (document ls)) = .ok d ↔
      (∀ w ∈ writtenWeights ls, w.shape.Counted) ∧
        d = ⟨writtenLayers ls, writtenWeights ls⟩ ∧
        ((writtenWeights ls).map WeightLine.target).Nodup := by
    rw [declarations_eq_ok_iff, faultsOf_document, layersOf_document]
    refine and_congr_right fun hcounted => ?_
    rw [weightsOf_document hcounted]
  refine ⟨fun t => SourceLine.readLine_chars _ line, fun t => SourceLine.readLine_chars _ line,
    hread, fun hd w hw => ?_⟩
  obtain ⟨-, rfl, hnodup⟩ := hread.1 hd
  exact weight?_of_mem hnodup hw

/-- A layer with a dot in its name, with two inputs and with a parameter whose
key is a dash and whose value looks like an output shape. -/
def denseLine : SourceLine where
  lead := ⟨['\t'], by decide⟩
  content := .layer {
    name := ⟨"a.b".toList, by decide, by decide⟩
    beforeEquals := Gap.none
    afterEquals := ⟨[' '], by decide⟩
    kind := ⟨"dense".toList, by decide, by decide⟩
    beforeInputs := ⟨[' '], by decide⟩
    inputs := .items ⟨Gap.none, ⟨"x".toList, by decide, by decide⟩, ⟨[' '], by decide⟩⟩
      [⟨Gap.none, ⟨"-".toList, by decide, by decide⟩, Gap.none⟩]
    afterInputs := Gap.none
    settings := [{
      key := ⟨"-".toList, by decide, by decide⟩
      beforeEquals := Gap.none
      afterEquals := Gap.none
      value := ⟨"->[7]=".toList, by decide, by decide⟩
      after := ⟨⟨['\t'], by decide⟩, by decide⟩
      not_arrow := by decide }]
    beforeShape := Gap.none
    output := .items ⟨Gap.none, 1, Gap.none⟩ [⟨⟨[' '], by decide⟩, 20, Gap.none⟩] }
  trail := Gap.none
  comment := some ⟨" = (;".toList, by decide⟩

/-- A weight of that layer, with a carriage return behind its last number. -/
def kernelLine : SourceLine where
  lead := Gap.none
  content := .weight {
    layer := ⟨"a.b".toList, by decide, by decide⟩
    role := ⟨"kernel".toList, by decide⟩
    beforeShape := Gap.none
    shape := .items ⟨Gap.none, 2, Gap.none⟩ []
    beforeEquals := Gap.none
    row := .entries Gap.none ⟨⟨"1.5".toList, by decide, by decide⟩, 1.5, rfl⟩
      [(⟨⟨"  ".toList, by decide⟩, by decide⟩,
        ⟨⟨"-.25".toList, by decide, by decide⟩, -0.25, rfl⟩)]
    count := by decide }
  trail := ⟨['\r'], by decide⟩
  comment := none

/-- The two lines with an empty one between them. -/
def denseDocument : List SourceLine :=
  [denseLine, ⟨Gap.none, .none, Gap.none, none⟩, kernelLine]

/-- A document with odd blanks, a parameter that looks like an arrow and a comment after a
statement. -/
theorem declarations_denseDocument :
    String.ofList (document denseDocument) =
      "\ta.b= dense (x ,-)-=->[7]=\t->[1, 20]; = (;\n\na.b.kernel[2]=1.5  -.25\r" ∧
    declarations (String.ofList (document denseDocument)) =
      .ok ⟨[⟨1, "a.b", "dense", ["x", "-"], [("-", "->[7]=")], [1, 20]⟩],
        [⟨3, "a.b", "kernel", [2], [1.5, -0.25]⟩]⟩ ∧
    weight? [⟨3, "a.b", "kernel", [2], [1.5, -0.25]⟩] "a.b" "kernel" =
      some ⟨3, "a.b", "kernel", [2], [1.5, -0.25]⟩ := by
  obtain ⟨-, -, hiff, hfound⟩ := declarations_document 1 Gap.none Gap.none none denseDocument
    ⟨[⟨1, "a.b", "dense", ["x", "-"], [("-", "->[7]=")], [1, 20]⟩],
      [⟨3, "a.b", "kernel", [2], [1.5, -0.25]⟩]⟩
  have hread := hiff.2 ⟨by decide, by rfl, by decide⟩
  exact ⟨by decide, hread, hfound hread _ (List.mem_singleton_self _)⟩

/-- A weight without values: its last dimension is 0, but the two in front of it multiply to more
than a size can be. -/
def hollowLine : SourceLine where
  lead := Gap.none
  content := .weight {
    layer := ⟨"z".toList, by decide, by decide⟩
    role := ⟨"kernel".toList, by decide⟩
    beforeShape := ⟨[' '], by decide⟩
    shape := .items ⟨Gap.none, 4294967296, Gap.none⟩
      [⟨⟨[' '], by decide⟩, 4294967296, Gap.none⟩, ⟨⟨[' '], by decide⟩, 0, Gap.none⟩]
    beforeEquals := ⟨[' '], by decide⟩
    row := .empty
    count := by decide }
  trail := Gap.none
  comment := none

/-- There are as many values as the shape says, which is none, and yet the line is not read. -/
theorem readLine_hollowLine :
    String.ofList hollowLine.chars = "z.kernel [4294967296, 4294967296, 0] =" ∧
      Shape.size [4294967296, 4294967296, 0] = 0 ∧
      readLine 4 hollowLine.chars = .error .overflow := by
  refine ⟨by decide, by decide, ?_⟩
  rw [hollowLine.readLine_chars]
  decide

end Model

end NeuralC
