/-!
# NeuralC.Text.Bracketed

Lists, pairs and optional values as messages show them: `[1, 2]`, `(1, 2)`,
`Some(3)` and `None`.
-/

namespace NeuralC.Text

/-- Items in square brackets. -/
def bracketed (items : List String) : String := "[" ++ ", ".intercalate items ++ "]"

/-- A list of naturals in square brackets. -/
def showNats (ns : List Nat) : String := bracketed (ns.map toString)

/-- A list of integers in square brackets. -/
def showInts (is : List Int) : String := bracketed (is.map toString)

/-- A list of pairs of naturals in square brackets. -/
def showPairs (ps : List (Nat × Nat)) : String :=
  bracketed (ps.map fun (a, b) => s!"({a}, {b})")

/-- An optional value that is already text. -/
def showOption : Option String → String
  | none => "None"
  | some s => s!"Some({s})"

end NeuralC.Text
