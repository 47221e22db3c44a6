/-!
# NeuralC.Bundle

The generated files of a model, in the order of their generation.
-/

namespace NeuralC

/-- A generated file; the path is relative to the directory of the model. -/
structure Artifact where
  path : String
  contents : String
deriving DecidableEq, Repr

/-- The number of bytes of a file. -/
def Artifact.size (a : Artifact) : Nat := a.contents.utf8ByteSize

/-- Generated files. -/
structure Bundle where
  artifacts : List Artifact
deriving DecidableEq, Repr

namespace Bundle

/-- The number of files. -/
def size (b : Bundle) : Nat := b.artifacts.length

/-- Whether there are no files. -/
def isEmpty (b : Bundle) : Bool := b.artifacts.isEmpty

/-- The contents of the first file of a path. -/
def get? (b : Bundle) (path : String) : Option String :=
  (b.artifacts.find? (·.path = path)).map Artifact.contents

/-- All files as one. -/
def singleFile (b : Bundle) : String :=
  "#define SINGLE_FILE\n" ++ String.join (b.artifacts.map fun a => a.contents ++ "\n")

end Bundle

end NeuralC
