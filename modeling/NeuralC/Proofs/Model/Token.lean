import NeuralC.Model.Line

/-!
# NeuralC.Proofs.Model.Token

The tokens of a model description as they are written, and the readers of
tokens on what is written.  A `Gap` is a run of blanks, a `Word` a name, a kind,
a key or a numeral, and a `Value` what a parameter is set to; each carries that
its characters are of its class.  A `Listing` is a list between commas, with
blanks around every item, and a `Setting` a parameter with its blanks.

A reader that meets a token with a gap in front of it gives the token and
exactly the text behind it, as long as that text cannot go on with the token:
`word_append`, `value_append`, `list_append` and `params_append`.
-/

namespace NeuralC

namespace Text

/-! ## Runs of characters -/

theorem takeWhile_append_of_head {p : Char → Bool} {run rest : List Char}
    (hrun : ∀ c ∈ run, p c = true) (hrest : ∀ c ∈ rest.head?, p c = false) :
    (run ++ rest).takeWhile p = run := by
  rw [List.takeWhile_append_of_pos hrun]
  cases rest with
  | nil => simp
  | cons c cs =>
      rw [List.takeWhile_cons_of_neg (by simp [hrest c rfl]), List.append_nil]

theorem dropWhile_append_of_head {p : Char → Bool} {run rest : List Char}
    (hrun : ∀ c ∈ run, p c = true) (hrest : ∀ c ∈ rest.head?, p c = false) :
    (run ++ rest).dropWhile p = rest := by
  rw [List.dropWhile_append_of_pos hrun]
  cases rest with
  | nil => simp
  | cons c cs => rw [List.dropWhile_cons_of_neg (by simp [hrest c rfl])]

/-- Blanks are trimmed up to the first character that is none. -/
theorem trimStart_append_of_head {run rest : List Char} (hrun : ∀ c ∈ run, isBlank c = true)
    (hrest : ∀ c ∈ rest.head?, isBlank c = false) : trimStart (run ++ rest) = rest :=
  dropWhile_append_of_head hrun hrest

/-! ## Numerals -/

/-- A decimal digit is read back. -/
theorem digit?_digitChar {d : Nat} (hd : d < 10) : digit? d.digitChar = some d := by
  have hall : ∀ d : Fin 10, digit? (Nat.digitChar d) = some d.val := by decide
  exact hall ⟨d, hd⟩

/-- One more digit is ten times the value and the digit. -/
theorem digitsFrom?_append_singleton (value : Nat) (cs : List Char) (c : Char) :
    digitsFrom? value (cs ++ [c]) =
      (digitsFrom? value cs).bind fun v => (digit? c).map (10 * v + ·) := by
  induction cs generalizing value with
  | nil => cases hc : digit? c <;> simp [digitsFrom?, hc]
  | cons b cs ih => cases hb : digit? b <;> simp [digitsFrom?, hb, ih]

/-- The decimal digits of a number are worth that number. -/
theorem digitsFrom?_toDigits (n : Nat) : digitsFrom? 0 (Nat.toDigits 10 n) = some n := by
  induction n using Nat.strongRecOn with
  | ind n ih =>
      rw [Nat.toDigits_eq_if (by omega)]
      split
      · next hn => simp [digitsFrom?, digit?_digitChar hn]
      · next hn =>
        have hdigit : n % 10 < 10 := Nat.mod_lt n (by omega)
        have hvalue : 10 * (n / 10) + n % 10 = n := Nat.div_add_mod n 10
        rw [digitsFrom?_append_singleton, ih (n / 10) (by omega), digit?_digitChar hdigit]
        simp [hvalue]

theorem isDigit_of_mem_toDigits {n : Nat} {c : Char} (hc : c ∈ Nat.toDigits 10 n) :
    c.isDigit = true :=
  Nat.isDigit_of_mem_toDigits (by omega) (by omega) hc

/-- The decimal digits of a size are read as that size. -/
theorem size?_toDigits {n : Nat} (hn : n < 0x10000000000000000) :
    size? (Nat.toDigits 10 n) = some n := by
  have hvalue := digitsFrom?_toDigits n
  have hdigits : ∀ c ∈ Nat.toDigits 10 n, c.isDigit = true := fun c => isDigit_of_mem_toDigits
  cases hcs : Nat.toDigits 10 n with
  | nil => exact absurd hcs Nat.toDigits_ne_nil
  | cons c cs =>
      rw [hcs] at hvalue hdigits
      have hplus : c ≠ '+' := by
        rintro rfl
        exact absurd (hdigits '+' List.mem_cons_self) (by decide)
      rw [size?, natural?.eq_2 _ _ (fun rest heq => hplus (List.cons.inj heq).1)]
      rw [digits?.eq_2 _ (List.cons_ne_nil c cs), hvalue, Option.filter_some,
        if_pos (decide_eq_true (by omega))]

end Text

namespace Model

open NeuralC.Text

/-! ## Tokens -/

/-- The blanks that a line can hold. -/
def isGapChar (c : Char) : Bool := isBlank c && c != '\n'

/-- The characters of a word that do not start a comment. -/
def isPlainChar (c : Char) : Bool := isWordChar c && c != ';'

/-- The characters of a value that do not start a comment. -/
def isSolidChar (c : Char) : Bool := !isBlank c && c != ';'

/-- Blanks within a line; there may be none. -/
structure Gap where
  chars : List Char
  all_gap : chars.all isGapChar = true

/-- Blanks that divide two tokens; there is at least one. -/
structure Break extends Gap where
  ne_nil : chars ≠ []

/-- A name, a kind, a key or a numeral. -/
structure Word where
  chars : List Char
  ne_nil : chars ≠ []
  all_plain : chars.all isPlainChar = true

/-- What a parameter is set to. -/
structure Value where
  chars : List Char
  ne_nil : chars ≠ []
  all_solid : chars.all isSolidChar = true

/-- A gap is blank and stays on its line. -/
theorem Gap.blank (gap : Gap) : ∀ c ∈ gap.chars, isBlank c = true ∧ c ≠ '\n' := by
  simpa [isGapChar] using List.all_eq_true.mp gap.all_gap

/-- A word is made of word characters and has no semicolon. -/
theorem Word.plain (w : Word) : ∀ c ∈ w.chars, isWordChar c = true ∧ c ≠ ';' := by
  simpa [isPlainChar] using List.all_eq_true.mp w.all_plain

/-- A value has no blank and no semicolon. -/
theorem Value.solid (v : Value) : ∀ c ∈ v.chars, isBlank c = false ∧ c ≠ ';' := by
  simpa [isSolidChar] using List.all_eq_true.mp v.all_solid

def Gap.none : Gap := ⟨[], rfl⟩

def Word.text (w : Word) : String := String.ofList w.chars

def Value.text (v : Value) : String := String.ofList v.chars

theorem isBlank_of_isWordChar {c : Char} (hc : isWordChar c = true) : isBlank c = false := by
  simp only [isWordChar, Bool.and_eq_true, Bool.not_eq_true'] at hc
  exact hc.1

theorem isWordChar_of_isBlank {c : Char} (hc : isBlank c = true) : isWordChar c = false := by
  simp [isWordChar, hc]

theorem isPlainChar_of_isDigit {c : Char} (hc : c.isDigit = true) : isPlainChar c = true := by
  have hrange : 48 ≤ c.toNat ∧ c.toNat ≤ 57 := by
    simpa [Char.isDigit, UInt32.le_iff_toNat_le] using hc
  have hblank : isBlank c = false := by
    simp only [isBlank, Bool.or_eq_false_iff, Bool.and_eq_false_iff, decide_eq_false_iff_not,
      beq_eq_false_iff_ne]
    omega
  have hne : ∀ d : Char, d.isDigit = false → c ≠ d := by
    rintro d hd rfl
    rw [hc] at hd
    contradiction
  simp [isPlainChar, isWordChar, hblank, hne]

def numeral (n : Nat) : Word where
  chars := Nat.toDigits 10 n
  ne_nil := Nat.toDigits_ne_nil
  all_plain := List.all_eq_true.mpr fun _ hc => isPlainChar_of_isDigit (isDigit_of_mem_toDigits hc)

theorem Gap.isBlank_of_mem (gap : Gap) : ∀ c ∈ gap.chars, isBlank c = true :=
  fun c hc => (gap.blank c hc).1

theorem Word.isWordChar_of_mem (w : Word) : ∀ c ∈ w.chars, isWordChar c = true :=
  fun c hc => (w.plain c hc).1

/-- A word starts with one of its characters. -/
theorem Word.exists_cons (w : Word) : ∃ c cs, w.chars = c :: cs ∧ isWordChar c = true := by
  cases hw : w.chars with
  | nil => exact absurd hw w.ne_nil
  | cons c cs => exact ⟨c, cs, rfl, w.isWordChar_of_mem c (hw ▸ List.mem_cons_self)⟩

theorem Word.head?_append (w : Word) (rest : List Char) :
    ∀ c ∈ (w.chars ++ rest).head?, isBlank c = false := by
  obtain ⟨c, cs, hw, hc⟩ := w.exists_cons
  simpa [hw] using isBlank_of_isWordChar hc

/-- A break starts with a blank. -/
theorem Break.head?_append (sep : Break) (rest : List Char) :
    ∀ c ∈ (sep.chars ++ rest).head?, isBlank c = true := by
  obtain ⟨b, bs, hsep⟩ := List.exists_cons_of_ne_nil sep.ne_nil
  simpa [hsep] using sep.isBlank_of_mem b (hsep ▸ List.mem_cons_self)

/-! ## Readers of single tokens -/

/-- Behind a gap stands what ends it. -/
theorem trimStart_gap (gap : Gap) {c : Char} (rest : List Char) (hc : isBlank c = false) :
    trimStart (gap.chars ++ c :: rest) = c :: rest :=
  trimStart_append_of_head gap.isBlank_of_mem (by simpa using hc)

/-- A gap in front of a character that is in no word cannot go on with one. -/
theorem head?_gap (gap : Gap) {c : Char} (rest : List Char) (hc : isWordChar c = false) :
    ∀ d ∈ (gap.chars ++ c :: rest).head?, isWordChar d = false := by
  intro d hd
  cases hgap : gap.chars with
  | nil =>
      rw [hgap, List.nil_append, List.head?_cons, Option.mem_some_iff] at hd
      exact hd ▸ hc
  | cons b bs =>
      rw [hgap, List.cons_append, List.head?_cons, Option.mem_some_iff] at hd
      have hb := gap.isBlank_of_mem b (hgap ▸ List.mem_cons_self)
      exact hd ▸ isWordChar_of_isBlank hb

/-- A character is found behind a gap. -/
theorem skip?_gap (gap : Gap) {c : Char} (rest : List Char) (hc : isBlank c = false) :
    skip? c (gap.chars ++ c :: rest) = some rest := by
  simp [skip?, trimStart_gap gap rest hc]

/-- Another character behind a gap is not taken for it. -/
theorem skip?_gap_of_ne (gap : Gap) {c d : Char} (rest : List Char) (hd : isBlank d = false)
    (hne : d ≠ c) : skip? c (gap.chars ++ d :: rest) = none := by
  simp [skip?, trimStart_gap gap rest hd, hne]

theorem expect_gap (gap : Gap) {c : Char} (rest : List Char) (hc : isBlank c = false) :
    expect c (gap.chars ++ c :: rest) = .ok rest := by
  rw [expect, skip?_gap gap rest hc]

/-- A gap before a word is trimmed. -/
theorem Word.trimStart_append (w : Word) (gap : Gap) (rest : List Char) :
    trimStart (gap.chars ++ (w.chars ++ rest)) = w.chars ++ rest :=
  trimStart_append_of_head gap.isBlank_of_mem (w.head?_append rest)

/-- A word is read up to where it ends. -/
theorem word_append (gap : Gap) (w : Word) {rest : List Char}
    (hrest : ∀ c ∈ rest.head?, isWordChar c = false) :
    word (gap.chars ++ (w.chars ++ rest)) = .ok (w.text, rest) := by
  simp only [word, w.trimStart_append gap, takeWhile_append_of_head w.isWordChar_of_mem hrest,
    dropWhile_append_of_head w.isWordChar_of_mem hrest]
  rw [if_neg (by simpa using w.ne_nil), Word.text]

/-- A value is read up to the blank behind it. -/
theorem value_append (gap : Gap) (v : Value) (sep : Break) (rest : List Char) :
    value (gap.chars ++ (v.chars ++ (sep.chars ++ rest))) = .ok (v.text, sep.chars ++ rest) := by
  have hsolid : ∀ c ∈ v.chars, (! isBlank c) = true := fun c hc => by simp [(v.solid c hc).1]
  have hstop : ∀ c ∈ (sep.chars ++ rest).head?, (! isBlank c) = false :=
    fun c hc => by simp [sep.head?_append rest c hc]
  have htrim : trimStart (gap.chars ++ (v.chars ++ (sep.chars ++ rest))) =
      v.chars ++ (sep.chars ++ rest) := by
    cases hv : v.chars with
    | nil => exact absurd hv v.ne_nil
    | cons c cs => exact trimStart_gap gap _ (v.solid c (hv ▸ List.mem_cons_self)).1
  simp only [value, htrim, takeWhile_append_of_head hsolid hstop,
    dropWhile_append_of_head hsolid hstop]
  rw [if_neg (by simpa using v.ne_nil), Value.text]

/-! ## Lists -/

/-- An item of a list with the blanks on both sides of it. -/
structure Spaced (α : Type) where
  before : Gap
  item : α
  after : Gap

/-- The items of a list as they stand in front of its closing bracket. -/
inductive Listing (α : Type) where
  | empty (gap : Gap)
  | items (first : Spaced α) (rest : List (Spaced α))

namespace Listing

variable {α : Type} (write : α → Word) (close : Char)

/-- Items with commas between them, and the closing bracket. -/
def joined (s : Spaced α) : List (Spaced α) → List Char
  | [] => s.before.chars ++ ((write s.item).chars ++ (s.after.chars ++ [close]))
  | t :: rest =>
    s.before.chars ++ ((write s.item).chars ++ (s.after.chars ++ ',' :: joined t rest))

def chars : Listing α → List Char
  | empty gap => gap.chars ++ [close]
  | items first rest => joined write close first rest

def toList : Listing α → List α
  | empty _ => []
  | items first rest => first.item :: rest.map (·.item)

end Listing

section

variable {α β : Type} {write : α → Word} {view : α → β} {item : String → Except ModelCause β}
  {close : Char}

/-- A list ends at its closing character. -/
theorem items_last {cs rest rest' : List Char} {w : String} {b : β}
    (hw : word cs = .ok (w, rest)) (hitem : item w = .ok b)
    (hclose : skip? close rest = some rest') :
    items close item cs = .ok ([b], rest') := by
  rw [items]
  split
  · next e he => simp [hw] at he
  · next u r he =>
    obtain ⟨rfl, rfl⟩ : w = u ∧ rest = r := by simpa [hw] using he
    simp only [hitem, hclose]

/-- A list goes on behind a comma. -/
theorem items_more {cs rest rest' rest'' : List Char} {w : String} {b : β} {bs : List β}
    (hw : word cs = .ok (w, rest)) (hitem : item w = .ok b) (hclose : skip? close rest = none)
    (hcomma : expect ',' rest = .ok rest') (hmore : items close item rest' = .ok (bs, rest'')) :
    items close item cs = .ok (b :: bs, rest'') := by
  rw [items]
  split
  · next e he => simp [hw] at he
  · next u r he =>
    obtain ⟨rfl, rfl⟩ : w = u ∧ rest = r := by simpa [hw] using he
    simp only [hitem, hclose]
    split
    · next e he => simp [hcomma] at he
    · next r he =>
      obtain rfl : rest' = r := by simpa [hcomma] using he
      rw [hmore]

/-- The reader of items gives what was written, item by item. -/
theorem items_joined (hitem : ∀ a, item (write a).text = .ok (view a))
    (hclose : isBlank close = false) (hword : isWordChar close = false) (hcomma : close ≠ ',')
    (s : Spaced α) (more : List (Spaced α)) (rest : List Char) :
    items close item (Listing.joined write close s more ++ rest) =
      .ok ((s :: more).map fun t => view t.item, rest) := by
  induction more generalizing s with
  | nil =>
      simp only [Listing.joined, List.append_assoc, List.singleton_append]
      exact items_last (word_append s.before (write s.item) (head?_gap s.after rest hword))
        (hitem s.item) (skip?_gap s.after rest hclose)
  | cons t more ih =>
      have hblank : isBlank ',' = false := by decide
      have hend : isWordChar ',' = false := by decide
      simp only [Listing.joined, List.append_assoc, List.cons_append]
      exact items_more (word_append s.before (write s.item) (head?_gap s.after _ hend))
        (hitem s.item) (skip?_gap_of_ne s.after _ hblank hcomma.symm)
        (expect_gap s.after _ hblank) (ih t)

/-- A list is read up to its closing bracket. -/
theorem list_append (hitem : ∀ a, item (write a).text = .ok (view a))
    (hclose : isBlank close = false) (hword : isWordChar close = false) (hcomma : close ≠ ',')
    (l : Listing α) (rest : List Char) :
    list close item (l.chars write close ++ rest) = .ok (l.toList.map view, rest) := by
  cases l with
  | empty gap =>
      simp only [list, Listing.chars, List.append_assoc, List.singleton_append,
        skip?_gap gap rest hclose]
      rfl
  | items first more =>
      -- the first item keeps the list from being taken for an empty one
      have hskip : skip? close (Listing.joined write close first more ++ rest) = none := by
        obtain ⟨c, cs, hw, hc⟩ := (write first.item).exists_cons
        have hne : c ≠ close := by
          rintro rfl
          rw [hword] at hc
          contradiction
        cases more <;>
          simp only [Listing.joined, hw, List.append_assoc, List.cons_append] <;>
          exact skip?_gap_of_ne first.before _ (isBlank_of_isWordChar hc) hne
      rw [list, Listing.chars, hskip]
      simp only [items_joined hitem hclose hword hcomma]
      simp [Listing.toList]

end

abbrev Dimension := Fin 0x10000000000000000

def Dimension.numeral (d : Dimension) : Word := Model.numeral d.val

/-- A written dimension is read back. -/
theorem dimension_numeral (d : Dimension) : dimension (Dimension.numeral d).text = .ok d.val := by
  rw [dimension, Word.text, String.toList_ofList, Dimension.numeral, Model.numeral,
    size?_toDigits d.isLt]

def Listing.shape (l : Listing Dimension) : Shape := l.toList.map (·.val)

/-- A shape with a gap in front of it. -/
def shapeChars (gap : Gap) (l : Listing Dimension) : List Char :=
  gap.chars ++ '[' :: l.chars Dimension.numeral ']'

/-- A written shape is read back, whatever follows it. -/
theorem shape_append (gap : Gap) (l : Listing Dimension) (rest : List Char) :
    shape (shapeChars gap l ++ rest) = .ok (l.shape, rest) := by
  simp only [shape, shapeChars, List.append_assoc, List.cons_append]
  rw [expect_gap gap _ (by decide)]
  exact list_append dimension_numeral (by decide) (by decide) (by decide) l rest

/-! ## Parameters -/

/-- A parameter of a layer with the blanks behind each of its tokens. -/
structure Setting where
  key : Word
  beforeEquals : Gap
  afterEquals : Gap
  value : Value
  after : Break
  not_arrow : ¬ ['-', '>'] <+: key.chars

namespace Setting

/-- The parameter as it is written. -/
def chars (s : Setting) : List Char :=
  s.key.chars ++ (s.beforeEquals.chars ++ '=' :: (s.afterEquals.chars ++
    (s.value.chars ++ s.after.chars)))

/-- The parameter as it is declared. -/
def pair (s : Setting) : String × String := (s.key.text, s.value.text)

/-- No key starts the arrow, whatever stands behind it. -/
theorem not_arrow_append (s : Setting) {rest : List Char}
    (hrest : ∀ c ∈ rest.head?, isWordChar c = false) (tail : List Char) :
    s.key.chars ++ rest ≠ '-' :: '>' :: tail := by
  intro heq
  have hgt : isWordChar '>' = true := by decide
  match hkey : s.key.chars with
  | [] => exact s.key.ne_nil hkey
  | [c] =>
      rw [hkey] at heq
      obtain ⟨-, rfl⟩ := List.cons.inj heq
      rw [hrest '>' rfl] at hgt
      contradiction
  | c :: d :: cs =>
      rw [hkey] at heq
      obtain ⟨rfl, hd⟩ := List.cons.inj heq
      obtain ⟨rfl, -⟩ := List.cons.inj hd
      exact s.not_arrow (hkey ▸ ⟨cs, rfl⟩)

end Setting

/-- A parameter is read, and then the others. -/
theorem params_more {name key v : String} {cs rest rest' rest'' tail : List Char}
    {ps : List (String × String)} (harrow : ∀ tail, trimStart cs ≠ '-' :: '>' :: tail)
    (hw : word cs = .ok (key, rest)) (hequals : expect '=' rest = .ok rest')
    (hv : value rest' = .ok (v, rest'')) (hmore : params name rest'' = .ok (ps, tail)) :
    params name cs = .ok ((key, v) :: ps, tail) := by
  rw [params]
  split
  · next heq => exact absurd heq (harrow _)
  · next heq => simp [word, heq] at hw
  · split
    · next he => simp [hw] at he
    · next he =>
      cases hw.symm.trans he
      split
      · next he => simp [hequals] at he
      · next he =>
        cases hequals.symm.trans he
        split
        · next he => simp [hv] at he
        · next he =>
          cases hv.symm.trans he
          rw [hmore]

/-- Parameters are read one by one up to the arrow. -/
theorem params_append (name : String) (gap : Gap) (settings : List Setting) (rest : List Char) :
    params name (gap.chars ++ (settings.flatMap Setting.chars ++ '-' :: '>' :: rest)) =
      .ok (settings.map Setting.pair, rest) := by
  induction settings generalizing gap with
  | nil =>
      rw [params, List.flatMap_nil, List.nil_append, trimStart_gap gap _ (by decide)]
      rfl
  | cons s settings ih =>
      have hequals : isBlank '=' = false := by decide
      have hend : isWordChar '=' = false := by decide
      simp only [List.flatMap_cons, Setting.chars, List.append_assoc, List.cons_append]
      refine params_more ?_ (word_append gap s.key (head?_gap s.beforeEquals _ hend))
        (expect_gap s.beforeEquals _ hequals) (value_append s.afterEquals s.value s.after _)
        (ih s.after.toGap)
      intro tail
      rw [s.key.trimStart_append gap]
      exact s.not_arrow_append (head?_gap s.beforeEquals _ hend) tail

end Model

end NeuralC
