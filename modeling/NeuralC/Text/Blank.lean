/-!
# NeuralC.Text.Blank

Blank characters, and the ways a text is cut at them: trimming, lines, words
and separated fields.  Texts are lists of characters here, so that every cut
is a structural recursion.

* `fields sep` cuts at every separator and loses nothing but the separators;
* `lines` drops line ends, and a carriage return only in front of one;
* `words` keeps the maximal runs of characters that are not blank.
-/

namespace NeuralC.Text

/-! ## Blank characters -/

/-- The characters with the Unicode property White_Space. -/
def isBlank (c : Char) : Bool :=
  let n := c.toNat
  (9 ≤ n && n ≤ 13) || n == 0x20 || n == 0x85 || n == 0xA0 || n == 0x1680 ||
    (0x2000 ≤ n && n ≤ 0x200A) || n == 0x2028 || n == 0x2029 || n == 0x202F ||
    n == 0x205F || n == 0x3000

/-- The text without its leading blanks. -/
def trimStart (cs : List Char) : List Char := cs.dropWhile isBlank

/-- The text without its trailing blanks. -/
def trimEnd (cs : List Char) : List Char := (cs.reverse.dropWhile isBlank).reverse

/-- The text without leading and trailing blanks. -/
def trim (cs : List Char) : List Char := trimEnd (trimStart cs)

theorem length_trimStart_le (cs : List Char) : (trimStart cs).length ≤ cs.length :=
  (List.dropWhile_suffix isBlank).length_le

/-! ## Cutting -/

/-- The pieces of a text between separators; there is always at least one. -/
def fields (sep : Char) : List Char → List (List Char)
  | [] => [[]]
  | c :: cs =>
    if c = sep then [] :: fields sep cs
    else match fields sep cs with
      | [] => [[c]]
      | f :: fs => (c :: f) :: fs

/-- A text cut at its first separator, if it has one. -/
def cutFirst (sep : Char) (cs : List Char) : Option (List Char × List Char) :=
  match cs.dropWhile (· ≠ sep) with
  | [] => none
  | _ :: rest => some (cs.takeWhile (· ≠ sep), rest)

/-- A text cut at its last separator, if it has one. -/
def cutLast (sep : Char) (cs : List Char) : Option (List Char × List Char) :=
  (cutFirst sep cs.reverse).map fun (back, front) => (front.reverse, back.reverse)

/-- A terminated line without the carriage return of its line end. -/
def dropReturn (line : List Char) : List Char :=
  match line.getLast? with
  | some '\r' => line.dropLast
  | _ => line

/-- The lines of a text.  Text after the last line end is a line of its own
unless it is empty, and keeps a final carriage return. -/
def lines (cs : List Char) : List (List Char) :=
  let pieces := fields '\n' cs
  pieces.dropLast.map dropReturn ++ (pieces.getLast?.filter (! ·.isEmpty)).toList

/-- Words of a text whose last word, so far, is the reverse of `word`. -/
def wordsAfter (word : List Char) : List Char → List (List Char)
  | [] => if word.isEmpty then [] else [word.reverse]
  | c :: cs =>
    if isBlank c then
      if word.isEmpty then wordsAfter [] cs else word.reverse :: wordsAfter [] cs
    else wordsAfter (c :: word) cs

/-- The maximal runs of characters that are not blank. -/
def words (cs : List Char) : List (List Char) := wordsAfter [] cs

end NeuralC.Text
