/-!
# NeuralC.Text.Plain

Text for a reader without a terminal.  Terminal sequences, which an escape
character starts, are left out, and so are control characters that do not
space the text.  Spacing inside a short sequence is text, and so is what
follows it, up to the next control character; there the sequence goes on.
-/

namespace NeuralC.Text

/-! ## Sequences -/

/-- Where terminal text stands. -/
inductive Terminal where
  /-- Outside any sequence. -/
  | ground
  /-- After an escape character. -/
  | escape
  /-- In a sequence that the next character from `0` to `~` ends. -/
  | selection
  /-- In a control sequence, which a character from `@` to `~` ends. -/
  | control
  /-- In a command to the terminal, which a bell ends. -/
  | command
  /-- At the start of a string for a device. -/
  | device
  /-- In the parameters of a string for a device. -/
  | parameters
  /-- Behind the parameters of a string for a device. -/
  | function
  /-- In a string, which its terminator ends. -/
  | string
deriving DecidableEq, Repr

namespace Terminal

/-- Whether a character is in a range. -/
def within (lo hi c : Char) : Bool := lo ≤ c && c ≤ hi

/-- Whether a character's UTF-8 encoding has the byte `9C`, the terminator of
strings, behind its first. -/
def holdsTerminator (c : Char) : Bool :=
  let n := c.toNat
  (0x80 ≤ n && n % 64 == 0x1C) || (0x800 ≤ n && n / 64 % 64 == 0x1C) ||
    (0x10000 ≤ n && n / 4096 % 64 == 0x1C)

/-- What the character after an escape starts. -/
def afterEscape (c : Char) : Terminal :=
  if c = '[' then control
  else if c = ']' then command
  else if c = 'P' then device
  else if c ∈ ['X', '^', '_'] then string
  else if within ' ' '/' c then selection
  else if within '0' '~' c then ground
  else escape

/-- The state after a character that belongs to a sequence. -/
def after (s : Terminal) (c : Char) : Terminal :=
  match s with
  | ground => ground
  | escape => afterEscape c
  | selection => if within '0' '~' c then ground else selection
  | control => if within '@' '~' c then ground else control
  | command => if c.toNat = 0x07 then ground else command
  | device =>
    if within ' ' '/' c then function
    else if within '0' '?' c then parameters
    else if within '@' '~' c then string
    else device
  | parameters =>
    if within ' ' '/' c then function else if within '<' '~' c then string else parameters
  | function => if within '0' '~' c then string else function
  | string => if holdsTerminator c then ground else string

/-- Whether a control character spaces the text: tab, line feed, form feed and
carriage return. -/
def isSpacing (c : Char) : Bool := c.toNat ∈ [0x09, 0x0A, 0x0C, 0x0D]

/-- Whether a character is text outside any sequence. -/
def isText (c : Char) : Bool := isSpacing c || (0x20 ≤ c.toNat && c.toNat != 0x7F)

/-- Whether a character starts text in some state. -/
def opens (s : Terminal) (c : Char) : Bool :=
  match s with
  | ground => isText c
  | escape | selection | control => isSpacing c
  | _ => false

end Terminal

/-! ## Reading -/

/-- A reader of terminal text: where it stands, and whether the last character
was text. -/
structure TerminalReader where
  state : Terminal
  inText : Bool
deriving DecidableEq, Repr

/-- The reader after a character.  An escape starts over wherever it stands,
and a cancellation ends any sequence.  Text goes on up to a character that is
none; a character beyond ASCII in it ends the sequence that it interrupts. -/
def TerminalReader.next (r : TerminalReader) (c : Char) : TerminalReader :=
  if c.toNat = 0x1B then ⟨.escape, false⟩
  else if c.toNat = 0x18 ∨ c.toNat = 0x1A then ⟨.ground, false⟩
  else if r.inText then
    if Terminal.isText c then ⟨if c.toNat < 0x80 then r.state else .ground, true⟩
    else ⟨r.state.after c, false⟩
  else if r.state.opens c then ⟨r.state, true⟩
  else ⟨r.state.after c, false⟩

/-- The text that is left for a reader. -/
def plainFrom (r : TerminalReader) : List Char → List Char
  | [] => []
  | c :: cs => if (r.next c).inText then c :: plainFrom (r.next c) cs else plainFrom (r.next c) cs

/-- The text without terminal sequences and stray control characters. -/
def plain (cs : List Char) : List Char := plainFrom ⟨.ground, false⟩ cs

end NeuralC.Text
