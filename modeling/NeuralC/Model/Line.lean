import NeuralC.Size
import NeuralC.Text.Decimal

/-!
# NeuralC.Model.Line

The lines of a model description.  A line declares a layer,

    name = kind(input, ...) key=value ... -> [d0, d1, ...]

or gives the values of a weight,

    name.role [d0, d1, ...] = v0 v1 ...

and a semicolon starts a comment.  Blanks may stand around every token.  A
word (a name, a kind, a key or a dimension) ends at a blank or at one of
`=(),[]`, a value only at a blank.  Readers take the rest of a line and give
what they read with the rest behind it, which is shorter.

A weight has to have as many values as its shape says.  That number is a size,
so a line can overflow.
-/

namespace NeuralC.Model

open NeuralC.Text

/-! ## Tokens -/

/-- The characters of a word. -/
def isWordChar (c : Char) : Bool := !isBlank c && c ∉ ['=', '(', ')', ',', '[', ']']

/-- The rest behind a character that may come next. -/
def skip? (c : Char) (cs : List Char) : Option (List Char) :=
  match trimStart cs with
  | [] => none
  | d :: rest => if d = c then some rest else none

/-- The rest behind a character that has to come next. -/
def expect (c : Char) (cs : List Char) : Except ModelCause (List Char) :=
  match skip? c cs with
  | some rest => .ok rest
  | none => .error (.expected c (trimStart cs).head?)

/-- A word and the rest behind it. -/
def word (cs : List Char) : Except ModelCause (String × List Char) :=
  let cs := trimStart cs
  let taken := cs.takeWhile isWordChar
  if taken.isEmpty then .error (.expectedWord cs.head?)
  else .ok (String.ofList taken, cs.dropWhile isWordChar)

/-- A parameter value and the rest behind it. -/
def value (cs : List Char) : Except ModelCause (String × List Char) :=
  let cs := trimStart cs
  let taken := cs.takeWhile (! isBlank ·)
  if taken.isEmpty then .error .expectedValue
  else .ok (String.ofList taken, cs.dropWhile (! isBlank ·))

theorem length_skip?_lt {c : Char} {cs rest : List Char} (h : skip? c cs = some rest) :
    rest.length < cs.length := by
  have hle := length_trimStart_le cs
  unfold skip? at h
  split at h
  · simp at h
  · next heq =>
    split at h
    · simp only [Option.some.injEq] at h
      subst h
      rw [heq, List.length_cons] at hle
      omega
    · simp at h

theorem length_expect_lt {c : Char} {cs rest : List Char} (h : expect c cs = .ok rest) :
    rest.length < cs.length := by
  unfold expect at h
  split at h
  · next r hr =>
    simp only [Except.ok.injEq] at h
    exact h ▸ length_skip?_lt hr
  · simp at h

/-- Dropping a run that is not empty leaves a shorter text. -/
theorem length_dropWhile_lt {p : Char → Bool} {cs : List Char}
    (h : (cs.takeWhile p).isEmpty = false) : (cs.dropWhile p).length < cs.length := by
  have hsplit := congrArg List.length (List.takeWhile_append_dropWhile (p := p) (l := cs))
  have hpos : 0 < (cs.takeWhile p).length := by
    cases hc : cs.takeWhile p with
    | nil => simp [hc] at h
    | cons _ _ => simp
  simp only [List.length_append] at hsplit
  omega

theorem length_word_lt {cs rest : List Char} {w : String} (h : word cs = .ok (w, rest)) :
    rest.length < cs.length := by
  unfold word at h
  simp only at h
  split at h
  · simp at h
  · next hne =>
    simp only [Except.ok.injEq, Prod.mk.injEq] at h
    have := length_dropWhile_lt (Bool.eq_false_iff.2 hne)
    have := length_trimStart_le cs
    rw [← h.2]
    omega

theorem length_value_lt {cs rest : List Char} {w : String} (h : value cs = .ok (w, rest)) :
    rest.length < cs.length := by
  unfold value at h
  simp only at h
  split at h
  · simp at h
  · next hne =>
    simp only [Except.ok.injEq, Prod.mk.injEq] at h
    have := length_dropWhile_lt (Bool.eq_false_iff.2 hne)
    have := length_trimStart_le cs
    rw [← h.2]
    omega

/-! ## Lists -/

/-- One or more items between commas, up to a closing character. -/
def items {α : Type} (close : Char) (item : String → Except ModelCause α) (cs : List Char) :
    Except ModelCause (List α × List Char) :=
  match _hw : word cs with
  | .error e => .error e
  | .ok (w, rest) =>
    match item w with
    | .error e => .error e
    | .ok a =>
      match skip? close rest with
      | some rest => .ok ([a], rest)
      | none =>
        match _hc : expect ',' rest with
        | .error e => .error e
        | .ok rest' =>
          match items close item rest' with
          | .error e => .error e
          | .ok (as, rest'') => .ok (a :: as, rest'')
termination_by cs.length
decreasing_by
  have := length_word_lt _hw
  have := length_expect_lt _hc
  omega

/-- Items between commas up to a closing character; there may be none. -/
def list {α : Type} (close : Char) (item : String → Except ModelCause α) (cs : List Char) :
    Except ModelCause (List α × List Char) :=
  match skip? close cs with
  | some rest => .ok ([], rest)
  | none => items close item cs

/-- A dimension of a shape. -/
def dimension (w : String) : Except ModelCause Nat :=
  match size? w.toList with
  | some n => .ok n
  | none => .error (.badDimension w)

/-- A shape in square brackets. -/
def shape (cs : List Char) : Except ModelCause (Shape × List Char) :=
  match expect '[' cs with
  | .error e => .error e
  | .ok rest => list ']' dimension rest

/-- The parameters of the layer `name`, up to the arrow in front of its output
shape. -/
def params (name : String) (cs : List Char) :
    Except ModelCause (List (String × String) × List Char) :=
  match trimStart cs with
  | '-' :: '>' :: rest => .ok ([], rest)
  | [] => .error (.noShape name)
  | _ =>
    match _hw : word cs with
    | .error e => .error e
    | .ok (key, rest) =>
      match _he : expect '=' rest with
      | .error e => .error e
      | .ok rest' =>
        match _hv : value rest' with
        | .error e => .error e
        | .ok (v, rest'') =>
          match params name rest'' with
          | .error e => .error e
          | .ok (ps, end_) => .ok ((key, v) :: ps, end_)
termination_by cs.length
decreasing_by
  have := length_word_lt _hw
  have := length_expect_lt _he
  have := length_value_lt _hv
  omega

/-- The end of a statement: nothing but blanks. -/
def finish (cs : List Char) : Except ModelCause Unit :=
  let rest := trimStart cs
  if rest.isEmpty then .ok () else .error (.trailing (String.ofList rest))

/-! ## Statements -/

/-- A layer as its line declares it. -/
structure LayerLine where
  line : Nat
  name : String
  kind : String
  inputs : List String
  params : List (String × String)
  output : Shape
deriving DecidableEq, Repr

/-- A weight as its line declares it. -/
structure WeightLine where
  line : Nat
  layer : String
  role : String
  shape : Shape
  values : List Float32
deriving DecidableEq, Repr

/-- The declared weight as a tensor. -/
def WeightLine.tensor (w : WeightLine) : Tensor := ⟨w.shape, .f32 w.values⟩

/-- What a line can state. -/
inductive Statement where
  | layer (declaration : LayerLine)
  | weight (declaration : WeightLine)
deriving DecidableEq, Repr

/-- The declaration of the layer `name`, from its equals sign on. -/
def layerLine (line : Nat) (name : String) (cs : List Char) : Except ModelCause LayerLine := do
  let cs ← expect '=' cs
  let (kind, cs) ← word cs
  let cs ← expect '(' cs
  let (inputs, cs) ← list ')' .ok cs
  let (ps, cs) ← params name cs
  let (output, cs) ← shape cs
  finish cs
  return ⟨line, name, kind, inputs, ps, output⟩

/-- The numbers of a list of words. -/
def numbers : List (List Char) → Except ModelCause (List Float32)
  | [] => .ok []
  | w :: ws =>
    match float32? w with
    | none => .error (.badWeight (String.ofList w))
    | some x =>
      match numbers ws with
      | .error e => .error e
      | .ok xs => .ok (x :: xs)

/-- The declaration of the weight `target`, from its shape on.  The last dot
of the target divides the layer from the role. -/
def weightLine (line : Nat) (target : String) (cs : List Char) : Except ModelCause WeightLine :=
  match cutLast '.' target.toList with
  | none => .error (.noRole target)
  | some (layer, role) => do
    let (dims, cs) ← shape cs
    let cs ← expect '=' cs
    let values ← numbers (words cs)
    return ⟨line, String.ofList layer, String.ofList role, dims, values⟩

/-- The statement of a line without comment. -/
def statement (line : Nat) (cs : List Char) : Except ModelCause Statement := do
  let (head, cs) ← word cs
  match (trimStart cs).head? with
  | some '=' => return .layer (← layerLine line head cs)
  | some '[' => return .weight (← weightLine line head cs)
  | found => throw (.unknownLine head found)

/-- The weight, which has to have as many values as its shape says. -/
def WeightLine.counted (w : WeightLine) : Except Failure WeightLine := do
  let size ← w.shape.count
  if w.values.length = size then return w
  else throw (.reported (.parse w.line (.weightCount w.shape size w.values.length)))

/-- The statement, with the values of a weight counted. -/
def Statement.counted : Statement → Except Failure Statement
  | .layer l => .ok (.layer l)
  | .weight w => w.counted.map .weight

/-- What stands on a line: the text in front of a semicolon, without the
blanks around it. -/
def content (raw : List Char) : List Char := trim (raw.takeWhile (· ≠ ';'))

/-- The statement of a line, unless the line is blank or a comment. -/
def readLine (line : Nat) (raw : List Char) : Except Failure (Option Statement) :=
  if (content raw).isEmpty then .ok none
  else match statement line (content raw) with
    | .ok s => s.counted.map some
    | .error cause => .error (.reported (.parse line cause))

end NeuralC.Model
