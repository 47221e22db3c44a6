import NeuralC.Bundle
import NeuralC.Diagnostic
import NeuralC.Files.Path

/-!
# NeuralC.Files.Disk

Reading and writing files.  A `Disk` gives the four operations that the
compiler needs of a file system, in some monad; reading models, creating
directories and writing bundles are the same on all of them.
-/

namespace NeuralC

/-- The operations of a file system. -/
structure Disk (m : Type → Type) where
  /-- The contents of a file. -/
  read : String → m (Except FileCause ByteArray)
  /-- Writes a file, in place of one that exists. -/
  write : String → ByteArray → m (Except FileCause Unit)
  /-- Makes one directory. -/
  makeDirectory : String → m (Except FileCause Unit)
  /-- Whether a path is an existing directory. -/
  isDirectory : String → m Bool

namespace Disk

variable {m : Type → Type} [Monad m]

/-- The text of a file. -/
def readText (disk : Disk m) (path : String) : m (Except Diagnostic String) := do
  match ← disk.read path with
  | .error cause => return .error (.file cause)
  | .ok bytes =>
    match String.fromUTF8? bytes with
    | some text => return .ok text
    | none => return .error (.file .notUtf8)

/-- Makes a directory unless it exists. -/
def ensureDirectory (disk : Disk m) (path : String) : m (Except FileCause Unit) := do
  match ← disk.makeDirectory path with
  | .ok () => return .ok ()
  | .error cause =>
    if ← disk.isDirectory path then return .ok () else return .error cause

/-- Makes a directory and those above it, given as paths of which the longest
comes first.  A directory above is only made when one below needs it. -/
def makeDirectories (disk : Disk m) : List String → m (Except FileCause Unit)
  | [] => return .ok ()
  | path :: above => do
    match ← disk.ensureDirectory path with
    | .error .notFound =>
      match ← disk.makeDirectories above with
      | .ok () => disk.ensureDirectory path
      | .error cause => return .error cause
    | result => return result

/-- Writes a text file. -/
def writeFile (disk : Disk m) (path contents : String) : m (Except Diagnostic Unit) := do
  match ← disk.write path contents.toUTF8 with
  | .ok () => return .ok ()
  | .error cause => return .error (.output path cause)

/-- Writes a generated file below a directory. -/
def writeArtifact (disk : Disk m) (dir : String) (a : Artifact) : m (Except Diagnostic Unit) := do
  let path := Path.join dir a.path
  match Path.parent? path with
  | none => disk.writeFile path a.contents
  | some parent =>
    match ← disk.makeDirectories (Path.ancestors parent) with
    | .error cause => return .error (.output parent cause)
    | .ok () => disk.writeFile path a.contents

/-- Writes generated files one after another. -/
def writeAll (disk : Disk m) (dir : String) : List Artifact → m (Except Diagnostic Unit)
  | [] => return .ok ()
  | a :: as => do
    match ← disk.writeArtifact dir a with
    | .error d => return .error d
    | .ok () => disk.writeAll dir as

/-- Writes the files of a bundle below a directory. -/
def writeBundle (disk : Disk m) (dir : String) (b : Bundle) : m (Except Diagnostic Unit) :=
  disk.writeAll dir b.artifacts

end Disk

end NeuralC
