import NeuralC.Graph.Show
import NeuralC.Graph.Verify
import NeuralC.Simplify.Activation
import NeuralC.Simplify.Names
import NeuralC.Simplify.Padding
import NeuralC.Simplify.Remove

/-!
# NeuralC.Simplify

The simplifying passes in the order they run.  They shrink the graph without
changing what it computes; renaming comes last, after the layers that would
lend their names are gone.  The order of the graph is checked after each pass.
-/

namespace NeuralC.Simplify

/-- A change of the whole graph that gives the number of its steps. -/
structure Pass where
  name : String
  run : Work Nat

/-- The passes in order. -/
def passes : List Pass := [
  ⟨"remove_identity", removeIdentity⟩,
  ⟨"remove_dropout", removeDropout⟩,
  ⟨"fuse_zero_padding", fusePadding⟩,
  ⟨"fuse_activation", fuseActivation⟩,
  ⟨"rename_operators", renameLayers⟩]

/-- The graph at work has to be in topological order. -/
def requireOrder : Work Unit := do
  if (← Work.graph).isTopological then pure () else throw .disorder

/-- Runs a pass and takes note of what it did. -/
def Pass.execute (p : Pass) : Work Unit := do
  let before := (← Work.graph).size
  let changed ← p.run
  requireOrder
  let after := (← Work.graph).size
  Work.note .debug s!"Pass {p.name}: {changed} rewrites, {before} -> {after} nodes"
  Work.count (·.recordPass p.name changed)

/-- Runs passes one after another. -/
def executeAll : List Pass → Work Unit
  | [] => pure ()
  | p :: ps => do
    p.execute
    executeAll ps

/-- Runs all passes. -/
def optimize : Work Unit := do
  executeAll passes
  let edges ← Work.attempt (← Work.graph).edgeNames
  Work.note .debug s!"Optimized graph:\n{Graph.dotText edges}"

end NeuralC.Simplify
