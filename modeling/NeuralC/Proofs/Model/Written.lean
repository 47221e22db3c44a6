import Mathlib.Data.List.Basic
import NeuralC.Proofs.Model.Token
import NeuralC.Proofs.Size

/-!
# NeuralC.Proofs.Model.Written

The lines of a model description as they are written, and the reader of lines
on what is written.  A `LayerText` is the declaration of a layer with every gap
that may stand in it, a `WeightText` the values of a weight.  A `SourceLine` is
one of them, or neither, with blanks around it and perhaps a comment behind it.

`readLine_chars` says that a line is read as what it was written for: the
reader skips the gaps and the comment and changes nothing else.  The one line that
is not read is a weight with leading dimensions whose product is too large.
-/

namespace NeuralC

namespace Text

/-! ## Cuts -/

def Trimmed (cs : List Char) : Prop :=
  (∀ c ∈ cs.head?, isBlank c = false) ∧ ∀ c ∈ cs.getLast?, isBlank c = false

/-- Blanks at the end are trimmed down to the last character that is none. -/
theorem trimEnd_append_of_getLast {core trail : List Char} (htrail : ∀ c ∈ trail, isBlank c = true)
    (hcore : ∀ c ∈ core.getLast?, isBlank c = false) : trimEnd (core ++ trail) = core := by
  have hrun : ∀ c ∈ trail.reverse, isBlank c = true := fun c hc => htrail c (List.mem_reverse.1 hc)
  have hstop : ∀ c ∈ core.reverse.head?, isBlank c = false := by
    rwa [List.head?_reverse]
  rw [trimEnd, List.reverse_append, dropWhile_append_of_head hrun hstop, List.reverse_reverse]

/-- Trimming takes the blanks on both sides and nothing else. -/
theorem trim_append {lead core trail : List Char} (hlead : ∀ c ∈ lead, isBlank c = true)
    (htrail : ∀ c ∈ trail, isBlank c = true) (hcore : Trimmed core) :
    trim (lead ++ (core ++ trail)) = core := by
  cases core with
  | nil =>
      have hall : ∀ c ∈ lead ++ trail, isBlank c = true := by
        intro c hc
        exact (List.mem_append.1 hc).elim (hlead c) (htrail c)
      have hstart := trimStart_append_of_head hall (show ∀ c ∈ [].head?, _ by simp)
      rw [List.append_nil] at hstart
      rw [List.nil_append, trim, hstart]
      rfl
  | cons c cs =>
      have hstart : trimStart (lead ++ ((c :: cs) ++ trail)) = (c :: cs) ++ trail :=
        trimStart_append_of_head hlead (by simpa using hcore.1)
      rw [trim, hstart, trimEnd_append_of_getLast htrail hcore.2]

/-- A text is cut at the first separator. -/
theorem cutFirst_append {sep : Char} {front : List Char} (hfront : ∀ c ∈ front, c ≠ sep)
    (back : List Char) : cutFirst sep (front ++ sep :: back) = some (front, back) := by
  have hrun : ∀ c ∈ front, decide (c ≠ sep) = true := fun c hc => decide_eq_true (hfront c hc)
  have hstop : ∀ c ∈ (sep :: back).head?, decide (c ≠ sep) = false := by simp
  rw [cutFirst, dropWhile_append_of_head hrun hstop, takeWhile_append_of_head hrun hstop]

/-- The last cut is made at the separator behind which there is no other. -/
theorem cutLast_append {sep : Char} {back : List Char} (hback : ∀ c ∈ back, c ≠ sep)
    (front : List Char) : cutLast sep (front ++ sep :: back) = some (front, back) := by
  have hrev : ∀ c ∈ back.reverse, c ≠ sep := fun c hc => hback c (List.mem_reverse.1 hc)
  rw [cutLast, List.reverse_append, List.reverse_cons, List.append_assoc, List.singleton_append,
    cutFirst_append hrev]
  simp

/-- Characters that are no blanks are taken into the current word. -/
theorem wordsAfter_append {run : List Char} (hrun : ∀ c ∈ run, isBlank c = false)
    (taken rest : List Char) :
    wordsAfter taken (run ++ rest) = wordsAfter (run.reverse ++ taken) rest := by
  induction run generalizing taken with
  | nil => rfl
  | cons c run ih =>
      rw [List.cons_append, wordsAfter, if_neg (by simp [hrun c List.mem_cons_self]),
        ih (fun d hd => hrun d (List.mem_cons_of_mem c hd))]
      simp

/-- Blanks before the words are skipped. -/
theorem words_append_of_blank {run : List Char} (hrun : ∀ c ∈ run, isBlank c = true)
    (rest : List Char) : words (run ++ rest) = words rest := by
  induction run with
  | nil => rfl
  | cons c run ih =>
      rw [List.cons_append, words, wordsAfter, if_pos (hrun c List.mem_cons_self)]
      exact ih fun d hd => hrun d (List.mem_cons_of_mem c hd)

/-- A token in front of a blank is a word of its own. -/
theorem words_append {token rest : List Char} (htoken : ∀ c ∈ token, isBlank c = false)
    (hne : token ≠ []) (hrest : ∀ c ∈ rest.head?, isBlank c = true) :
    words (token ++ rest) = token :: words rest := by
  have hempty : token.reverse.isEmpty = false := by simpa using hne
  rw [words, wordsAfter_append htoken, List.append_nil]
  cases rest with
  | nil => simp [wordsAfter, words, hempty]
  | cons b rest =>
      have hb : isBlank b = true := hrest b rfl
      simp [wordsAfter, words, hempty, hb]

end Text

namespace Model

open NeuralC.Text

/-! ## Characters within a line -/

/-- No line end, and nothing that starts a comment. -/
def Inline (cs : List Char) : Prop := ∀ c ∈ cs, c ≠ ';' ∧ c ≠ '\n'

@[simp] theorem inline_nil : Inline [] := by simp [Inline]

@[simp] theorem inline_append {a b : List Char} : Inline (a ++ b) ↔ Inline a ∧ Inline b := by
  simp only [Inline, List.forall_mem_append]

@[simp] theorem inline_cons {c : Char} {cs : List Char} :
    Inline (c :: cs) ↔ (c ≠ ';' ∧ c ≠ '\n') ∧ Inline cs := by
  simp [Inline]

theorem inline_flatMap {α : Type} {f : α → List Char} (hf : ∀ a, Inline (f a)) (as : List α) :
    Inline (as.flatMap f) := by
  intro c hc
  obtain ⟨a, -, ha⟩ := List.mem_flatMap.1 hc
  exact hf a c ha

theorem ne_newline_of_isBlank {c : Char} (hc : isBlank c = false) : c ≠ '\n' := by
  rintro rfl
  exact absurd hc (by decide)

@[simp] theorem Gap.inline (gap : Gap) : Inline gap.chars := by
  intro c hc
  refine ⟨?_, (gap.blank c hc).2⟩
  rintro rfl
  exact absurd (gap.blank _ hc).1 (by decide)

@[simp] theorem Value.inline (v : Value) : Inline v.chars :=
  fun c hc => ⟨(v.solid c hc).2, ne_newline_of_isBlank (v.solid c hc).1⟩

@[simp] theorem Word.inline (w : Word) : Inline w.chars := fun c hc =>
  ⟨(w.plain c hc).2, ne_newline_of_isBlank (isBlank_of_isWordChar (w.plain c hc).1)⟩

/-- A list stays on its line. -/
theorem Listing.inline {α : Type} {write : α → Word} {close : Char}
    (hclose : close ≠ ';' ∧ close ≠ '\n') (l : Listing α) : Inline (l.chars write close) := by
  cases l with
  | empty gap => simp [Listing.chars, hclose]
  | items first rest =>
      rw [Listing.chars]
      induction rest generalizing first with
      | nil => simp [Listing.joined, hclose]
      | cons s rest ih => simp [Listing.joined, ih s]

@[simp] theorem Setting.inline (s : Setting) : Inline s.chars := by
  simp [Setting.chars]

/-- A list ends with its closing bracket. -/
theorem Listing.getLast?_chars {α : Type} (write : α → Word) (close : Char) (l : Listing α) :
    (l.chars write close).getLast? = some close := by
  cases l with
  | empty gap => simp [Listing.chars]
  | items first rest =>
      rw [Listing.chars]
      induction rest generalizing first with
      | nil => simp [Listing.joined]
      | cons s rest ih =>
          simp [Listing.joined, List.getLast?_append, List.getLast?_cons, ih s]

/-! ## Layers -/

/-- The declaration of a layer with the gaps that may stand in it. -/
structure LayerText where
  name : Word
  beforeEquals : Gap
  afterEquals : Gap
  kind : Word
  beforeInputs : Gap
  inputs : Listing Word
  afterInputs : Gap
  settings : List Setting
  beforeShape : Gap
  output : Listing Dimension

namespace LayerText

/-- What stands behind the name. -/
def body (t : LayerText) : List Char :=
  t.beforeEquals.chars ++ '=' :: (t.afterEquals.chars ++ (t.kind.chars ++
    (t.beforeInputs.chars ++ '(' :: (t.inputs.chars id ')' ++ (t.afterInputs.chars ++
      (t.settings.flatMap Setting.chars ++ '-' :: '>' :: shapeChars t.beforeShape t.output))))))

def chars (t : LayerText) : List Char := t.name.chars ++ t.body

/-- The layer that is declared. -/
def declared (t : LayerText) (line : Nat) : LayerLine where
  line := line
  name := t.name.text
  kind := t.kind.text
  inputs := t.inputs.toList.map Word.text
  params := t.settings.map Setting.pair
  output := t.output.shape

/-- A written layer is read back. -/
theorem layerLine_body (t : LayerText) (line : Nat) :
    layerLine line t.name.text t.body = .ok (t.declared line) := by
  have hkind : isWordChar '(' = false := by decide
  have hinputs : ∀ rest, list ')' .ok (t.inputs.chars id ')' ++ rest) =
      .ok (t.inputs.toList.map Word.text, rest) :=
    list_append (fun _ => rfl) (by decide) (by decide) (by decide) t.inputs
  have hshape := shape_append t.beforeShape t.output []
  rw [List.append_nil] at hshape
  rw [layerLine, body, expect_gap _ _ (by decide)]
  simp only [bind, Except.bind, word_append _ t.kind (head?_gap _ _ hkind),
    expect_gap t.beforeInputs _ (by decide : isBlank '(' = false), hinputs, params_append, hshape]
  rfl

/-- Behind the name of a layer comes an equals sign. -/
theorem head?_body (t : LayerText) : (trimStart t.body).head? = some '=' := by
  rw [body, trimStart_gap _ _ (by decide), List.head?_cons]

/-- A declaration is told from a weight by the equals sign behind its name. -/
theorem statement_chars (t : LayerText) (line : Nat) :
    statement line t.chars = .ok (.layer (t.declared line)) := by
  have hend : isWordChar '=' = false := by decide
  have hword : word t.chars = .ok (t.name.text, t.body) :=
    word_append Gap.none t.name (head?_gap t.beforeEquals _ hend)
  simp only [statement, hword, bind, Except.bind, t.head?_body, t.layerLine_body]
  rfl

theorem inline (t : LayerText) : Inline t.chars := by
  simp [chars, body, shapeChars, Listing.inline, inline_flatMap]

theorem trimmed (t : LayerText) : Trimmed t.chars := by
  have hlast : t.chars.getLast? = some ']' := by
    simp [chars, body, shapeChars, List.getLast?_append, List.getLast?_cons,
      t.output.getLast?_chars]
  refine ⟨t.name.head?_append t.body, ?_⟩
  intro c hc
  obtain rfl : ']' = c := Option.some.inj (hlast.symm.trans hc)
  decide

end LayerText

/-! ## Weights -/

/-- The name of a role: a word without a dot. -/
structure RoleName where
  chars : List Char
  all_plain : chars.all (fun c => isPlainChar c && c != '.') = true

theorem RoleName.plain (r : RoleName) : ∀ c ∈ r.chars, isPlainChar c = true ∧ c ≠ '.' := by
  simpa using List.all_eq_true.mp r.all_plain

/-- A number as it is written. -/
structure Number where
  token : Value
  value : Float32
  reads : float32? token.chars = some value

/-- The numbers of a weight, with blanks between them. -/
inductive Row where
  | empty
  | entries (gap : Gap) (first : Number) (rest : List (Break × Number))

namespace Row

def tail (rest : List (Break × Number)) : List Char :=
  rest.flatMap fun p => p.1.chars ++ p.2.token.chars

def chars : Row → List Char
  | empty => []
  | entries gap first rest => gap.chars ++ (first.token.chars ++ tail rest)

def values : Row → List Float32
  | empty => []
  | entries _ first rest => first.value :: rest.map (·.2.value)

theorem tail_cons (sep : Break) (e : Number) (rest : List (Break × Number)) :
    tail ((sep, e) :: rest) = sep.chars ++ (e.token.chars ++ tail rest) := by
  simp [tail]

/-- Written numbers are read back. -/
theorem numbers_tail (e : Number) (rest : List (Break × Number)) :
    numbers (words (e.token.chars ++ tail rest)) = .ok (e.value :: rest.map (·.2.value)) := by
  have hsolid (e : Number) : ∀ c ∈ e.token.chars, isBlank c = false :=
    fun c hc => (e.token.solid c hc).1
  induction rest generalizing e with
  | nil =>
      rw [words_append (hsolid e) e.token.ne_nil (by simp [tail])]
      simp [tail, words, wordsAfter, numbers, e.reads]
  | cons p rest ih =>
      obtain ⟨sep, f⟩ := p
      rw [tail_cons, words_append (hsolid e) e.token.ne_nil (sep.head?_append _),
        words_append_of_blank sep.isBlank_of_mem]
      simp [numbers, e.reads, ih f]

/-- The numbers are read in their order. -/
theorem numbers_chars (r : Row) : numbers (words r.chars) = .ok r.values := by
  cases r with
  | empty => rfl
  | entries gap first rest =>
      rw [chars, words_append_of_blank gap.isBlank_of_mem]
      exact numbers_tail first rest

/-- The last number ends the row. -/
theorem getLast?_tail (e : Number) (rest : List (Break × Number)) :
    ∀ c ∈ (e.token.chars ++ tail rest).getLast?, isBlank c = false := by
  induction rest generalizing e with
  | nil =>
      intro c hc
      rw [tail, List.flatMap_nil, List.append_nil] at hc
      exact (e.token.solid c (List.mem_of_getLast? hc)).1
  | cons p rest ih =>
      obtain ⟨sep, f⟩ := p
      have hne : f.token.chars ++ tail rest ≠ [] := by simp [f.token.ne_nil]
      rw [tail_cons, List.getLast?_append_of_ne_nil _ (by simp [f.token.ne_nil]),
        List.getLast?_append_of_ne_nil _ hne]
      exact ih f

theorem inline (r : Row) : Inline r.chars := by
  cases r with
  | empty => simp [chars]
  | entries gap first rest => simp [chars, tail, inline_flatMap]

end Row

/-! ## Values and elements -/

namespace WeightLine

variable {w v : WeightLine}

/-- A weight is taken when it has as many values as its shape says and these can be counted. -/
theorem counted_eq (w : WeightLine) :
    w.counted = if w.shape.Counted then
        if w.values.length = Shape.size w.shape then .ok w
        else .error (.reported
          (.parse w.line (.weightCount w.shape (Shape.size w.shape) w.values.length)))
      else .error .overflow := by
  rw [counted]
  split
  · next hshape =>
    rw [Shape.count_of_counted hshape]
    rfl
  · next hshape =>
    rw [Shape.count_of_not_counted hshape]
    rfl

/-- A weight line passes exactly if its shape can be counted and has that many values. -/
theorem counted_eq_ok :
    w.counted = .ok v ↔ v = w ∧ w.shape.Counted ∧ w.values.length = Shape.size w.shape := by
  rw [counted_eq]
  split
  · split <;> simp_all [eq_comm]
  · simp_all

/-- A weight whose elements can be counted is reported at its line, if at all. -/
theorem counted_eq_error {f : Failure} (h : w.counted = .error f) :
    (¬w.shape.Counted ∧ f = .overflow) ∨
      w.shape.Counted ∧ ∃ cause, f = .reported (.parse w.line cause) := by
  rw [counted_eq] at h
  split at h
  · next hshape =>
    split at h
    · cases h
    · cases h
      exact .inr ⟨hshape, _, rfl⟩
  · next hshape =>
    cases h
    exact .inl ⟨hshape, rfl⟩

end WeightLine

/-- Counting changes no statement. -/
theorem Statement.eq_of_counted {s t : Statement} (h : s.counted = .ok t) : t = s := by
  cases s with
  | layer l =>
      cases h
      rfl
  | weight w =>
      obtain ⟨v, hv, rfl⟩ := map_eq_ok.mp h
      rw [(WeightLine.counted_eq_ok.mp hv).1]

/-! ## Weights -/

/-- The values of a weight with the gaps that may stand in them. -/
structure WeightText where
  layer : Word
  role : RoleName
  beforeShape : Gap
  shape : Listing Dimension
  beforeEquals : Gap
  row : Row
  count : row.values.length = Shape.size shape.shape

namespace WeightText

/-- The layer and the role with the dot between them. -/
def target (t : WeightText) : Word where
  chars := t.layer.chars ++ '.' :: t.role.chars
  ne_nil := by simp
  all_plain := by
    have hrole : t.role.chars.all isPlainChar = true :=
      List.all_eq_true.mpr fun c hc => (t.role.plain c hc).1
    rw [List.all_append, List.all_cons, t.layer.all_plain, hrole]
    rfl

/-- What stands behind the target. -/
def body (t : WeightText) : List Char :=
  shapeChars t.beforeShape t.shape ++ (t.beforeEquals.chars ++ '=' :: t.row.chars)

/-- The values as they are written. -/
def chars (t : WeightText) : List Char := t.target.chars ++ t.body

/-- The weight that is declared. -/
def declared (t : WeightText) (line : Nat) : WeightLine where
  line := line
  layer := t.layer.text
  role := String.ofList t.role.chars
  shape := t.shape.shape
  values := t.row.values

/-- A written weight is read back. -/
theorem weightLine_body (t : WeightText) (line : Nat) :
    weightLine line t.target.text t.body = .ok (t.declared line) := by
  have hcut : cutLast '.' t.target.text.toList = some (t.layer.chars, t.role.chars) := by
    rw [Word.text, String.toList_ofList]
    exact cutLast_append (fun c hc => (t.role.plain c hc).2) _
  rw [weightLine, hcut]
  simp only [body, shape_append, bind, Except.bind, t.row.numbers_chars,
    expect_gap t.beforeEquals _ (by decide : isBlank '=' = false)]
  simp [declared, Word.text]
  rfl

/-- The values are as many as the shape says, where its elements can be counted. -/
theorem counted_declared (t : WeightText) (line : Nat) :
    (t.declared line).counted =
      if t.shape.shape.Counted then .ok (t.declared line) else .error .overflow := by
  have hcount : (t.declared line).values.length = Shape.size (t.declared line).shape := t.count
  rw [WeightLine.counted_eq, if_pos hcount]
  rfl

theorem head?_body (t : WeightText) : (trimStart t.body).head? = some '[' := by
  rw [body, shapeChars, List.append_assoc, List.cons_append, trimStart_gap _ _ (by decide),
    List.head?_cons]

/-- A weight is told from a declaration by the bracket behind its target. -/
theorem statement_chars (t : WeightText) (line : Nat) :
    statement line t.chars = .ok (.weight (t.declared line)) := by
  have hend : isWordChar '[' = false := by decide
  have hstop : ∀ c ∈ t.body.head?, isWordChar c = false := by
    rw [body, shapeChars, List.append_assoc]
    exact head?_gap t.beforeShape _ hend
  have hword : word t.chars = .ok (t.target.text, t.body) := word_append Gap.none t.target hstop
  simp only [statement, hword, bind, Except.bind, t.head?_body, t.weightLine_body]
  rfl

theorem inline (t : WeightText) : Inline t.chars := by
  simp [chars, body, shapeChars, Listing.inline, Row.inline]

theorem trimmed (t : WeightText) : Trimmed t.chars := by
  refine ⟨t.target.head?_append t.body, ?_⟩
  have hlast : t.chars.getLast? = ('=' :: t.row.chars).getLast? := by
    rw [chars, body, List.getLast?_append_of_ne_nil _ (by simp),
      List.getLast?_append_of_ne_nil _ (by simp), List.getLast?_append_of_ne_nil _ (by simp)]
  rw [hlast]
  cases t.row with
  | empty => simp [Row.chars, isBlank]
  | entries gap first rest =>
      have hne : first.token.chars ++ Row.tail rest ≠ [] := by simp [first.token.ne_nil]
      rw [Row.chars, ← List.cons_append, List.getLast?_append_of_ne_nil _ hne]
      exact Row.getLast?_tail first rest

end WeightText

/-! ## Lines -/

/-- What a line can be written for. -/
inductive Content where
  | none
  | layer (text : LayerText)
  | weight (text : WeightText)

/-- A remark up to the end of its line. -/
structure Comment where
  chars : List Char
  within : chars.all (· != '\n') = true

/-- A line of a model description. -/
structure SourceLine where
  lead : Gap
  content : Content
  trail : Gap
  comment : Option Comment

namespace Content

/-- The line without blanks around it and without its comment. -/
def chars : Content → List Char
  | none => []
  | layer t => t.chars
  | weight t => t.chars

/-- What is read of the line: what it was written for, unless it is a weight whose elements cannot
be counted. -/
def read (line : Nat) : Content → Except Failure (Option Statement)
  | none => .ok .none
  | layer t => .ok (some (.layer (t.declared line)))
  | weight t =>
    if t.shape.shape.Counted then .ok (some (.weight (t.declared line))) else .error .overflow

theorem inline : ∀ c : Content, Inline c.chars
  | none => inline_nil
  | layer t => t.inline
  | weight t => t.inline

theorem trimmed : ∀ c : Content, Trimmed c.chars
  | none => by simp [Trimmed, chars]
  | layer t => t.trimmed
  | weight t => t.trimmed

end Content

namespace SourceLine

/-- The comment with its semicolon, if there is one. -/
def remark (s : SourceLine) : List Char :=
  match s.comment with
  | none => []
  | some c => ';' :: c.chars

/-- The line as it is written. -/
def chars (s : SourceLine) : List Char :=
  s.lead.chars ++ (s.content.chars ++ s.trail.chars) ++ s.remark

/-- The content of a written line is what was written, without comment and blanks. -/
theorem content_chars (s : SourceLine) : Model.content s.chars = s.content.chars := by
  have hinline : Inline (s.lead.chars ++ (s.content.chars ++ s.trail.chars)) := by
    simp [s.content.inline]
  have hrun : ∀ c ∈ s.lead.chars ++ (s.content.chars ++ s.trail.chars),
      decide (c ≠ ';') = true := fun c hc => decide_eq_true (hinline c hc).1
  have hstop : ∀ c ∈ s.remark.head?, decide (c ≠ ';') = false := by
    rw [remark]
    cases s.comment <;> simp
  rw [Model.content, chars, takeWhile_append_of_head hrun hstop,
    trim_append s.lead.isBlank_of_mem s.trail.isBlank_of_mem s.content.trimmed]

/-- A line is read as what it was written for, or its elements cannot be counted. -/
theorem readLine_chars (s : SourceLine) (line : Nat) :
    readLine line s.chars = s.content.read line := by
  rw [readLine, s.content_chars]
  cases s.content with
  | none => rfl
  | layer t =>
      have hne : t.chars.isEmpty = false := by simp [LayerText.chars, t.name.ne_nil]
      simp only [Content.chars, hne, Bool.false_eq_true, if_false, t.statement_chars]
      rfl
  | weight t =>
      have hne : t.chars.isEmpty = false := by simp [WeightText.chars, t.target.ne_nil]
      simp only [Content.chars, Content.read, hne, Bool.false_eq_true, if_false,
        t.statement_chars, Statement.counted, t.counted_declared]
      split <;> rfl

/-- A written line holds no line break. -/
theorem ne_newline_of_mem (s : SourceLine) : ∀ c ∈ s.chars, c ≠ '\n' := by
  intro c hc
  rw [chars, List.mem_append] at hc
  rcases hc with hc | hc
  · have hinline : Inline (s.lead.chars ++ (s.content.chars ++ s.trail.chars)) := by
      simp [s.content.inline]
    exact (hinline c hc).2
  · rw [remark] at hc
    cases hcomment : s.comment with
    | none => simp [hcomment] at hc
    | some r =>
        simp only [hcomment, List.mem_cons] at hc
        rcases hc with rfl | hc
        · decide
        · simpa using List.all_eq_true.mp r.within c hc

end SourceLine

end Model

end NeuralC
