import NeuralC.Layer
import NeuralC.Number
import NeuralC.Text.Upper

/-!
# NeuralC.C.Code

C text as a list of lines.  A line has a depth, which counts levels of
indentation, and a text; an empty line is not indented.  Code is put together
from lines and braced blocks, and becomes a string only in `render`.
-/

namespace NeuralC.C

/-- A line of code. -/
structure Line where
  depth : Nat
  text : String
deriving DecidableEq, Repr

/-- Lines of code. -/
abbrev Code := List Line

/-- One line that is not indented. -/
def line (text : String) : Code := [⟨0, text⟩]

/-- Lines that are not indented. -/
def lines (texts : List String) : Code := texts.map fun text => ⟨0, text⟩

/-- An empty line. -/
def blank : Code := line ""

/-- The code one level deeper. -/
def indent (code : Code) : Code := code.map fun l => { l with depth := l.depth + 1 }

/-- Code between two lines. -/
def enclosed (first : String) (body : Code) (last : String) : Code :=
  line first ++ indent body ++ line last

/-- Code in braces behind a head. -/
def braced (head : String) (body : Code) : Code := enclosed (head ++ " \x7b") body "\x7d"

/-- A choice between two pieces of code. -/
def choice (condition : String) (yes no : Code) : Code :=
  line s!"if ({condition}) \x7b" ++ indent yes ++ enclosed "\x7d else \x7b" no "\x7d"

/-- Code under a condition. -/
def when (condition : String) (body : Code) : Code := braced s!"if ({condition})" body

/-- A loop of a counter from zero up to a bound. -/
def count (counter bound : String) (body : Code) : Code :=
  braced s!"for ({counter} = 0; {counter} < {bound}; {counter}++)" body

/-- A loop of a counter from zero up to a bound in steps. -/
def stride (counter bound step : String) (body : Code) : Code :=
  braced s!"for ({counter} = 0; {counter} < {bound}; {counter} += {step})" body

/-- Code inside loops, the outermost first. -/
def nest (heads : List String) (body : Code) : Code := heads.foldr braced body

/-- The line as text. -/
def Line.render (l : Line) : String :=
  if l.text.isEmpty then "\n"
  else String.join (List.replicate l.depth "  ") ++ l.text ++ "\n"

/-- The code as text. -/
def render (code : Code) : String := String.join (code.map Line.render)

@[simp] theorem render_append (a b : Code) : render (a ++ b) = render a ++ render b := by
  simp [render]

/-! ## Common texts -/

/-- Extents of an array, each in brackets. -/
def brackets (extents : List String) : String :=
  String.join (extents.map fun extent => s!"[{extent}]")

/-- The extents of an array of some shape, batch dimension left out. -/
def extents (shape : Shape) : String := brackets ((shape.drop 1).map toString)

/-- The word of the generated code for a rounding. -/
def roundWord (mode : Option RoundMode) : String :=
  "ROUND_MODE_" ++ Text.upper (mode.getD .unset).name

/-- The include guard of the header of some name. -/
def guard (name : String) : String := s!"_{Text.upper name}_H_"

/-- Includes that a file needs unless all files are one. -/
def includes (files : List String) : Code :=
  line "#ifndef SINGLE_FILE" ++ lines (files.map fun file => s!"#include \"{file}\"") ++
    line "#endif"

end NeuralC.C
