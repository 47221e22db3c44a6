import NeuralC.Work

/-!
# NeuralC.Simplify.Names

Layer names as C identifiers.  All other characters are dropped, and a name
that would start with a digit gets an underscore in front.  Two layers must not
end up with one name; all names are checked before any is changed.
-/

namespace NeuralC.Simplify

/-- The characters of an identifier. -/
def isIdentifierChar (c : Char) : Bool := c.isAlphanum || c == '_'

/-- The name as an identifier; empty when no character of it can stay. -/
def identifier (name : String) : String :=
  match name.toList.filter isIdentifierChar with
  | [] => ""
  | c :: cs => if c.isDigit then String.ofList ('_' :: c :: cs) else String.ofList (c :: cs)

/-- The new names of the layers whose name changes, where `taken` are the
identifiers given so far. -/
def newNames (g : Graph) (taken : List String) :
    List Handle → Except Failure (List (Handle × String))
  | [] => .ok []
  | h :: hs =>
    match g.node h with
    | .error f => .error f
    | .ok n =>
      let new := identifier n.name
      if new = "" then .error (.reported (.editing n.name .noIdentifier))
      else if new ∈ taken then .error (.reported (.editing n.name (.identifierTaken new)))
      else match newNames g (new :: taken) hs with
        | .error f => .error f
        | .ok rest => .ok (if new = n.name then rest else (h, new) :: rest)

/-- Gives a layer another name. -/
def rename (h : Handle) (name : String) : Work Unit := do
  let g ← Work.graph
  Work.note .trace s!"Renaming '{g.nameOf h}' to '{name}'"
  Work.setGraph (g.modifyLayer h fun l => { l with name := name })

/-- Gives layers other names, one after another. -/
def renameAll : List (Handle × String) → Work Unit
  | [] => pure ()
  | (h, name) :: rest => do
    rename h name
    renameAll rest

/-- Turns every layer name into an identifier; the value is the number of
names changed. -/
def renameLayers : Work Nat := do
  let g ← Work.graph
  let renames ← Work.attempt (newNames g [] g.order)
  renameAll renames
  return renames.length

end NeuralC.Simplify
