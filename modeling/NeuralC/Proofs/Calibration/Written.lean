import Mathlib.Data.List.TakeWhile
import NeuralC.Proofs.Calibration.Table
import NeuralC.Proofs.Model.Document

/-!
# NeuralC.Proofs.Calibration.Written

Calibration data as they are written, and the reader on what is written.  A
`Cell` is what can stand between two commas; a `ScaleText` is a scale factor and
a `RoundText` a round mode in one of its spellings, each with its cell.  A
`TextLine` is a line of eight cells with blanks around them, or blanks alone.

A line is read as what it was written for (`line_chars`), blank lines do not
count, and what becomes of the lines is said by `Table` (`parse_document`).
-/

namespace NeuralC

namespace Text

/-! ## Trimming -/

/-- Text without blanks at its ends is left as it is. -/
theorem trim_of_trimmed {cs : List Char} (hcs : Trimmed cs) : trim cs = cs := by
  have hnone : ∀ c ∈ ([] : List Char), isBlank c = true := by simp
  have htrim := trim_append hnone hnone hcs
  rwa [List.nil_append, List.append_nil] at htrim

theorem mem_dropWhile_isBlank {c : Char} {cs : List Char} (hc : c ∈ cs)
    (hblank : isBlank c = false) : c ∈ cs.dropWhile isBlank := by
  rw [← List.takeWhile_append_dropWhile (p := isBlank) (l := cs), List.mem_append] at hc
  refine hc.resolve_left fun hrun => ?_
  rw [List.mem_takeWhile_imp hrun] at hblank
  contradiction

/-- Trimming keeps every character that is not blank. -/
theorem mem_trim {c : Char} {cs : List Char} (hc : c ∈ cs) (hblank : isBlank c = false) :
    c ∈ trim cs := by
  have hstart : c ∈ trimStart cs := mem_dropWhile_isBlank hc hblank
  exact List.mem_reverse.mpr (mem_dropWhile_isBlank (List.mem_reverse.mpr hstart) hblank)

/-- A carriage return at the end is trimmed anyway. -/
theorem trim_dropReturn (raw : List Char) : trim (dropReturn raw) = trim raw := by
  rcases dropReturn_cases raw with hsame | ⟨front, rfl, hfront⟩
  · rw [hsame]
  · rw [hfront, trim_concat_of_blank (by decide)]

/-- A carriage return at the end of a line is trimmed off its last field. -/
theorem map_trim_fields_dropReturn (raw : List Char) :
    (fields ',' (dropReturn raw)).map trim = (fields ',' raw).map trim := by
  rcases dropReturn_cases raw with hsame | ⟨front, rfl, hfront⟩
  · rw [hsame]
  · obtain ⟨pieces, last, hpieces, hconcat⟩ := fields_concat (show '\r' ≠ ',' by decide) front
    rw [hfront, hpieces, hconcat, List.map_append, List.map_append, List.map_singleton,
      List.map_singleton, trim_concat_of_blank (by decide)]

end Text

namespace Calibration

open NeuralC.Text NeuralC.Model

/-! ## Cells -/

/-- The characters that a field can hold. -/
def isCellChar (c : Char) : Bool := c != ',' && c != '\n'

/-- The characters of a numeral or a word. -/
def isSolidCellChar (c : Char) : Bool := !isBlank c && c != ','

/-- A cell holds anything but commas and line breaks. -/
theorem isCellChar_iff {c : Char} : isCellChar c = true ↔ c ≠ ',' ∧ c ≠ '\n' := by
  simp [isCellChar]

theorem isSolidCellChar_iff {c : Char} :
    isSolidCellChar c = true ↔ isBlank c = false ∧ c ≠ ',' := by
  simp [isSolidCellChar]

/-- The content of a field: no comma and no line end, and no blank at either end. -/
structure Cell where
  chars : List Char
  all_cell : chars.all isCellChar = true
  trimmed : Trimmed chars

/-- A text without blanks has none at its ends. -/
theorem trimmed_of_solid {cs : List Char} (hcs : cs.all isSolidCellChar = true) : Trimmed cs := by
  have hsolid : ∀ c ∈ cs, isBlank c = false := fun c hc =>
    (isSolidCellChar_iff.mp (List.all_eq_true.mp hcs c hc)).1
  exact ⟨fun c hc => hsolid c (List.mem_of_head? hc),
    fun c hc => hsolid c (List.mem_of_getLast? hc)⟩

theorem isCellChar_of_solid {c : Char} (hc : isSolidCellChar c = true) : isCellChar c = true :=
  have hsolid := isSolidCellChar_iff.mp hc
  isCellChar_iff.mpr ⟨hsolid.2, ne_newline_of_isBlank hsolid.1⟩

theorem isSolidCellChar_of_isDigit {c : Char} (hc : c.isDigit = true) :
    isSolidCellChar c = true := by
  have hword : isWordChar c = true ∧ c ≠ ';' := by
    simpa [isPlainChar] using isPlainChar_of_isDigit hc
  have hparts : isBlank c = false ∧ c ∉ ['=', '(', ')', ',', '[', ']'] := by
    simpa [isWordChar] using hword.1
  refine isSolidCellChar_iff.mpr ⟨hparts.1, ?_⟩
  rintro rfl
  exact hparts.2 (by decide)

/-- A numeral or a word as a field. -/
def Cell.solid (chars : List Char) (hsolid : chars.all isSolidCellChar = true) : Cell where
  chars := chars
  all_cell := List.all_eq_true.mpr fun c hc =>
    isCellChar_of_solid (List.all_eq_true.mp hsolid c hc)
  trimmed := trimmed_of_solid hsolid

/-! ## Scale factors -/

def paddedDigits (zeros n : Nat) : List Char := List.replicate zeros '0' ++ Nat.toDigits 10 n

/-- Leading zeros do not change a numeral. -/
theorem digits?_paddedDigits (zeros n : Nat) : digits? (paddedDigits zeros n) = some n := by
  have hzeros : digitsFrom? 0 (paddedDigits zeros n) = some n := by
    induction zeros with
    | zero => exact digitsFrom?_toDigits n
    | succ zeros ih => exact ih
  rw [digits?.eq_2 _ (by simp [paddedDigits, Nat.toDigits_ne_nil]), hzeros]

/-- A numeral is read by its digits, with a plus sign or without. -/
theorem integer?_of_digits? {lo hi : Int} {cs : List Char} {n : Nat} (hn : digits? cs = some n)
    (hlo : lo ≤ n) (hhi : n ≤ hi) :
    integer? lo hi cs = some (n : Int) ∧ integer? lo hi ('+' :: cs) = some (n : Int) := by
  have hsign (sign : Char) (hnone : digit? sign = none) (rest : List Char) : cs ≠ sign :: rest := by
    rintro rfl
    rw [digits?.eq_2 _ (List.cons_ne_nil _ _), digitsFrom?, hnone] at hn
    contradiction
  rw [integer?.eq_3 _ _ _ (hsign '+' rfl) (hsign '-' rfl), integer?.eq_1, hn]
  simp [hlo, hhi]

/-- A minus sign negates what the digits say. -/
theorem integer?_minus_of_digits? {lo hi : Int} {cs : List Char} {n : Nat}
    (hn : digits? cs = some n) (hlo : lo ≤ -n) (hhi : -n ≤ hi) :
    integer? lo hi ('-' :: cs) = some (-n : Int) := by
  rw [integer?.eq_2, hn]
  simp [hlo, hhi]

/-- A scale factor as it is written: absent, or with a plus sign that is not needed and with
zeros in front. -/
inductive ScaleText where
  | absent
  | present (value : Int32) (plus : Bool) (zeros : Nat)

namespace ScaleText

def chars : ScaleText → List Char
  | absent => "None".toList
  | present value plus zeros =>
    let digits := paddedDigits zeros value.toInt.natAbs
    if value.toInt < 0 then '-' :: digits else if plus then '+' :: digits else digits

def value : ScaleText → Option Int
  | absent => none
  | present value _ _ => some value.toInt

/-- A written integer is read back, with or without a sign and zeros before it. -/
theorem signed32?_chars (value : Int32) (plus : Bool) (zeros : Nat) :
    signed32? (present value plus zeros).chars = some value.toInt := by
  have hdigits := digits?_paddedDigits zeros value.toInt.natAbs
  have hlo := value.le_toInt
  have hhi := value.toInt_lt
  rw [chars, signed32?]
  by_cases hneg : value.toInt < 0
  · have hvalue : (-value.toInt.natAbs : Int) = value.toInt := by omega
    rw [if_pos hneg, integer?_minus_of_digits? hdigits (by omega) (by omega), hvalue]
  · have hvalue : (value.toInt.natAbs : Int) = value.toInt := by omega
    obtain ⟨hplain, hplus⟩ := integer?_of_digits? hdigits
      (show (-0x80000000 : Int) ≤ _ by omega) (show _ ≤ (0x7FFFFFFF : Int) by omega)
    rw [hvalue] at hplain hplus
    rw [if_neg hneg]
    cases plus with
    | false => exact hplain
    | true => exact hplus

/-- Every character is one of a numeral or a word. -/
theorem all_solid (s : ScaleText) : s.chars.all isSolidCellChar = true := by
  cases s with
  | absent => rfl
  | present value plus zeros =>
      have hdigits : (paddedDigits zeros value.toInt.natAbs).all isSolidCellChar = true := by
        rw [List.all_eq_true]
        intro c hc
        rcases List.mem_append.mp hc with hc | hc
        · rw [List.eq_of_mem_replicate hc]
          rfl
        · exact isSolidCellChar_of_isDigit (isDigit_of_mem_toDigits hc)
      rw [chars]
      split
      · exact hdigits
      · split <;> exact hdigits

def cell (s : ScaleText) : Cell := .solid s.chars s.all_solid

/-- A written scale is read back. -/
theorem scale_chars (s : ScaleText) : scale s.chars = .ok s.value := by
  cases s with
  | absent => rfl
  | present value plus zeros =>
      have hread := signed32?_chars value plus zeros
      have hne : String.ofList (present value plus zeros).chars ≠ "None" := by
        intro h
        rw [← String.toList_inj, String.toList_ofList] at h
        rw [h] at hread
        contradiction
      rw [scale, if_neg hne, hread]
      rfl

end ScaleText

/-! ## Round modes -/

/-- A character is one of a word when its small letter is. -/
theorem isSolidCellChar_of_toLower {c : Char} (hc : isSolidCellChar c.toLower = true) :
    isSolidCellChar c = true := by
  -- Only capital letters change, and none of them is a blank or a comma.
  by_cases hupper : c.val ≥ 'A'.val ∧ c.val ≤ 'Z'.val
  · have hrange : 65 ≤ c.toNat ∧ c.toNat ≤ 90 := by
      simpa [UInt32.le_iff_toNat_le] using hupper
    have hblank : isBlank c = false := by
      simp only [isBlank, Bool.or_eq_false_iff, Bool.and_eq_false_iff, decide_eq_false_iff_not,
        beq_eq_false_iff_ne]
      omega
    have hcomma : c ≠ ',' := by
      rintro rfl
      exact absurd hrange (by decide)
    exact isSolidCellChar_iff.mpr ⟨hblank, hcomma⟩
  · have hsame : c.toLower = c := dif_neg hupper
    rwa [hsame] at hc

/-- A round mode as it is written: absent, or its word in any letter case.  The word for a mode
that was not configured may not be written as the absent one is. -/
inductive RoundText where
  | absent
  | present (mode : RoundMode) (letters : List Char)
    (spells : letters.map Char.toLower = mode.name.toList) (ne_absent : letters ≠ "None".toList)

namespace RoundText

def chars : RoundText → List Char
  | absent => "None".toList
  | present _ letters _ _ => letters

def value : RoundText → Option RoundMode
  | absent => none
  | present mode _ _ _ => some mode

theorem all_solid (r : RoundText) : r.chars.all isSolidCellChar = true := by
  cases r with
  | absent => rfl
  | present mode letters spells _ =>
      have hname : mode.name.toList.all isSolidCellChar = true := by cases mode <;> rfl
      rw [← spells, List.all_map] at hname
      refine List.all_eq_true.mpr fun c hc => isSolidCellChar_of_toLower ?_
      exact List.all_eq_true.mp hname c hc

def cell (r : RoundText) : Cell := .solid r.chars r.all_solid

/-- A written round mode is read back, in whatever case its letters are. -/
theorem round_chars (r : RoundText) : round r.chars = .ok r.value := by
  cases r with
  | absent => rfl
  | present mode letters spells ne_absent =>
      have hne : String.ofList letters ≠ "None" := by
        intro h
        rw [← String.toList_inj, String.toList_ofList] at h
        exact ne_absent h
      have htrim : trim letters = letters :=
        trim_of_trimmed (present mode letters spells ne_absent).cell.trimmed
      have hread : RoundMode.read (String.ofList letters) = .ok mode := by
        rw [RoundMode.read, String.toList_ofList, htrim, spells, String.ofList_toList]
        cases mode <;> rfl
      rw [chars, round, if_neg hne, hread]
      rfl

end RoundText

/-! ## Lines -/

/-- A field with the blanks around it. -/
def spaced {α : Type} (write : α → Cell) (s : Spaced α) : List Char :=
  s.before.chars ++ ((write s.item).chars ++ s.after.chars)

section Spaced

variable {α : Type} (write : α → Cell) (s : Spaced α)

/-- A cell is trimmed to its item. -/
theorem trim_spaced : trim (spaced write s) = (write s.item).chars :=
  trim_append s.before.isBlank_of_mem s.after.isBlank_of_mem (write s.item).trimmed

theorem isCellChar_of_mem_gap {gap : Gap} {c : Char} (hc : c ∈ gap.chars) :
    isCellChar c = true := by
  obtain ⟨hblank, hne⟩ := gap.blank c hc
  have hcomma : c ≠ ',' := by
    rintro rfl
    exact absurd hblank (by decide)
  exact isCellChar_iff.mpr ⟨hcomma, hne⟩

theorem isCellChar_of_mem_spaced {c : Char} (hc : c ∈ spaced write s) : isCellChar c = true := by
  rcases List.mem_append.mp hc with hc | hc
  · exact isCellChar_of_mem_gap hc
  · rcases List.mem_append.mp hc with hc | hc
    · exact List.all_eq_true.mp (write s.item).all_cell c hc
    · exact isCellChar_of_mem_gap hc

end Spaced

/-- A line of calibration data, with the blanks around its fields. -/
structure LineText where
  name : Spaced Cell
  input : Spaced ScaleText
  activation : Spaced ScaleText
  weights : Spaced ScaleText
  bias : Spaced ScaleText
  inputRound : Spaced RoundText
  activationRound : Spaced RoundText
  weightsRound : Spaced RoundText

namespace LineText

def fields (l : LineText) : List (List Char) := [
  spaced id l.name,
  spaced ScaleText.cell l.input,
  spaced ScaleText.cell l.activation,
  spaced ScaleText.cell l.weights,
  spaced ScaleText.cell l.bias,
  spaced RoundText.cell l.inputRound,
  spaced RoundText.cell l.activationRound,
  spaced RoundText.cell l.weightsRound]

/-- The fields with commas between them. -/
def chars (l : LineText) : List Char := [','].intercalate l.fields

/-- What the line was written for. -/
def entry (l : LineText) : String × Entry :=
  (String.ofList l.name.item.chars,
    { inputScale := l.input.item.value
      activationScale := l.activation.item.value
      weightsScale := l.weights.item.value
      biasScale := l.bias.item.value
      inputRound := l.inputRound.item.value
      activationRound := l.activationRound.item.value
      weightsRound := l.weightsRound.item.value })

theorem isCellChar_of_mem_fields {l : LineText} {field : List Char} (hf : field ∈ l.fields)
    {c : Char} (hc : c ∈ field) : isCellChar c = true := by
  simp only [fields, List.mem_cons, List.not_mem_nil, or_false] at hf
  rcases hf with rfl | rfl | rfl | rfl | rfl | rfl | rfl | rfl <;>
    exact isCellChar_of_mem_spaced _ _ hc

/-- A written line has the cells that it was written from. -/
theorem fields_chars (l : LineText) : Text.fields ',' l.chars = l.fields := by
  refine fields_intercalate fun field hf c hc => ?_
  exact (isCellChar_iff.mp (isCellChar_of_mem_fields (l := l) hf hc)).1

/-- A line is read as what it was written for. -/
theorem line_chars (l : LineText) : line l.chars = .ok l.entry := by
  have hcells : l.fields.map trim = [l.name.item.chars, l.input.item.chars,
      l.activation.item.chars, l.weights.item.chars, l.bias.item.chars, l.inputRound.item.chars,
      l.activationRound.item.chars, l.weightsRound.item.chars] := by
    simp only [fields, List.map_cons, List.map_nil, trim_spaced]
    rfl
  rw [line, fields_chars, hcells]
  simp only [ScaleText.scale_chars, RoundText.round_chars]
  rfl

/-- A line is not blank, for it has commas. -/
theorem trim_chars (l : LineText) : (trim l.chars).isEmpty = false := by
  have hcomma : ',' ∈ l.chars := by simp [chars, fields, List.intercalate_cons_cons]
  rw [List.isEmpty_eq_false_iff]
  exact List.ne_nil_of_mem (mem_trim hcomma (by decide))

/-- A written line holds no line break. -/
theorem ne_newline_of_mem {l : LineText} {c : Char} (hc : c ∈ l.chars) : c ≠ '\n' := by
  rcases mem_of_mem_intercalate hc with rfl | ⟨field, hf, hc⟩
  · decide
  · exact (isCellChar_iff.mp (isCellChar_of_mem_fields hf hc)).2

end LineText

/-! ## Reading -/

/-- A line is read the same with a carriage return at its end. -/
theorem line_dropReturn (raw : List Char) : line (dropReturn raw) = line raw := by
  rw [line, line, map_trim_fields_dropReturn]

/-- Lines are read the same with carriage returns at their ends. -/
theorem readLines_map_dropReturn (r : Reading) (number : Nat) (front back : List (List Char)) :
    readLines r number (front.map dropReturn ++ back) = readLines r number (front ++ back) := by
  induction front generalizing r number with
  | nil => rfl
  | cons raw front ih =>
      rw [List.map_cons, List.cons_append, List.cons_append, readLines, readLines,
        trim_dropReturn, line_dropReturn]
      simp only [ih]

/-- An empty last line is skipped. -/
theorem readLines_concat_nil (r : Reading) (number : Nat) (raws : List (List Char)) :
    readLines r number (raws ++ [[]]) = readLines r number raws := by
  induction raws generalizing r number with
  | nil => rfl
  | cons raw raws ih =>
      rw [List.cons_append, readLines, readLines]
      simp only [ih]

/-- Neither a carriage return nor an empty last line matters to the reader. -/
theorem readLines_lines (r : Reading) (number : Nat) (cs : List Char) :
    readLines r number (lines cs) = readLines r number (Text.fields '\n' cs) := by
  obtain ⟨front, last, hfields⟩ : ∃ front last, Text.fields '\n' cs = front ++ [last] :=
    (List.eq_nil_or_concat' _).resolve_left (fields_ne_nil '\n' cs)
  rw [lines, hfields, List.dropLast_concat, List.getLast?_concat, readLines_map_dropReturn]
  -- An empty last piece is no line, and as a line it would be blank.
  cases last with
  | nil => rw [readLines_concat_nil]; exact congrArg _ (List.append_nil front)
  | cons c cs => rfl

/-! ## Documents -/

/-- A line of the data, or a line of blanks. -/
inductive TextLine where
  | blank (gap : Gap)
  | data (l : LineText)

namespace TextLine

/-- The characters of the line, without its line end. -/
def chars : TextLine → List Char
  | blank gap => gap.chars
  | data l => l.chars

/-- What the line was written for. -/
def entry? : TextLine → Option (String × Entry)
  | blank _ => none
  | data l => some l.entry

theorem ne_newline_of_mem (l : TextLine) {c : Char} (hc : c ∈ l.chars) : c ≠ '\n' := by
  cases l with
  | blank gap => exact (gap.blank c hc).2
  | data l => exact LineText.ne_newline_of_mem hc

end TextLine

/-- Lines with line ends between them. -/
def document (ls : List TextLine) : List Char := ['\n'].intercalate (ls.map TextLine.chars)

/-- What the lines were written for, in their order. -/
def written (ls : List TextLine) : List (String × Entry) := ls.filterMap TextLine.entry?

/-- Each line adds what it was written for. -/
theorem readLines_map_chars (r : Reading) (number : Nat) (ls : List TextLine) :
    readLines r number (ls.map TextLine.chars) =
      .ok ((written ls).foldl (fun r (name, e) => r.add name e) r) := by
  induction ls generalizing r number with
  | nil => rfl
  | cons l ls ih =>
      rw [List.map_cons, readLines]
      simp only [ih]
      cases l with
      | blank gap =>
          have hblank : trim gap.chars = [] := by
            have hstart : trimStart gap.chars = [] :=
              List.dropWhile_eq_nil_iff.mpr gap.isBlank_of_mem
            rw [trim, hstart]
            rfl
          rw [TextLine.chars, hblank]
          rfl
      | data l =>
          rw [TextLine.chars, l.trim_chars, l.line_chars]
          rfl

/-- What is read of a document is what its lines were written for. -/
theorem readLines_document (ls : List TextLine) :
    readLines .start 1 (lines (document ls)) = .ok (Reading.ofLines (written ls)) := by
  rw [readLines_lines, document]
  cases ls with
  | nil => rfl
  | cons l ls =>
      rw [List.map_cons, fields_intercalate, ← List.map_cons, readLines_map_chars]
      · rfl
      rw [← List.map_cons]
      intro piece hpiece c hc
      obtain ⟨l, -, rfl⟩ := List.mem_map.mp hpiece
      exact l.ne_newline_of_mem hc

/-- Calibration data are read as a table that has the last line for every name, with the names
in the order of their first lines.  An input that no line of data names is appended, with the
first scale factor and the first round mode that are given for an input at all. -/
theorem parse_document (ls : List TextLine) (input : String) :
    ∃ t : Table, parse (String.ofList (document ls)) input = .ok t ∧
      t.names = ((written ls).map (·.1)).eraseDups ++
        (if Unnamed (written ls) input then [input] else []) ∧
      (∀ name, t.get? name =
        if Unnamed (written ls) input ∧ name = input then
          some {
            inputScale := (written ls).findSome? (·.2.inputScale)
            activationScale := (written ls).findSome? (·.2.inputScale)
            weightsScale := some 0
            biasScale := none
            inputRound := (written ls).findSome? (·.2.inputRound)
            activationRound := (written ls).findSome? (·.2.inputRound)
            weightsRound := none }
        else (written ls).reverse.lookup name) ∧
      ∀ p ∈ t.entries, t.get? p.1 = some p.2 := by
  refine ⟨ofLines (written ls) input, ?_, names_ofLines _ _, get?_ofLines _ _, ?_⟩
  · rw [parse, String.toList_ofList, readLines_document]
    rfl
  · exact fun p hp => (distinct_ofLines _ _).get?_of_mem hp

/-- A line for a convolution with a plus sign, zeros in front of a number and a round mode that
was not configured. -/
def convolutionLine : LineText where
  name := ⟨Gap.none, .solid "c1".toList (by decide), ⟨['\t', ' '], by decide⟩⟩
  input := ⟨⟨[' ', '\t'], by decide⟩, .absent, Gap.none⟩
  activation := ⟨Gap.none, .present 7 true 2, ⟨[' ', '\t'], by decide⟩⟩
  weights := ⟨Gap.none, .present (.ofInt (-3)) false 0, Gap.none⟩
  bias := ⟨Gap.none, .absent, Gap.none⟩
  inputRound := ⟨Gap.none, .present .unset "NONE".toList (by decide) (by decide), Gap.none⟩
  activationRound := ⟨Gap.none, .absent, Gap.none⟩
  weightsRound := ⟨Gap.none, .present .floor "Floor".toList (by decide) (by decide),
    ⟨[' ', '\r'], by decide⟩⟩

/-- Another line for the convolution, which gives other things. -/
def convolutionAgain : LineText where
  name := ⟨Gap.none, .solid "c1".toList (by decide), Gap.none⟩
  input := ⟨Gap.none, .present 5 false 0, Gap.none⟩
  activation := ⟨Gap.none, .present 6 false 0, Gap.none⟩
  weights := ⟨Gap.none, .absent, Gap.none⟩
  bias := ⟨Gap.none, .absent, Gap.none⟩
  inputRound := ⟨Gap.none, .present .nearest "nearest".toList (by decide) (by decide), Gap.none⟩
  activationRound := ⟨Gap.none, .absent, Gap.none⟩
  weightsRound := ⟨Gap.none, .absent, Gap.none⟩

/-- The two lines with blanks between them. -/
def convolutionTwice : List TextLine :=
  [.data convolutionLine, .blank ⟨['\t', ' '], by decide⟩, .data convolutionAgain]

/-- A table that names one layer twice: the later line wins, and the input layer has an entry. -/
theorem parse_convolutionTwice :
    String.ofList (document convolutionTwice) =
      "c1\t , \tNone,+007 \t,-3,None,NONE,None,Floor \r\n\t \nc1,5,6,None,None,nearest,None,None" ∧
    ∃ t : Table, parse (String.ofList (document convolutionTwice)) "x" = .ok t ∧
      t.names = ["c1", "x"] ∧
      t.get? "c1" = some ⟨some 5, some 6, none, none, some .nearest, none, none⟩ ∧
      t.get? "x" = some ⟨some 5, some 5, some 0, none, some .unset, some .unset, none⟩ := by
  obtain ⟨t, hparse, hnames, hget, -⟩ := parse_document convolutionTwice "x"
  refine ⟨by decide, t, hparse, ?_, ?_, ?_⟩
  · rw [hnames]
    decide
  · rw [hget]
    decide
  · rw [hget]
    decide

end Calibration

end NeuralC
