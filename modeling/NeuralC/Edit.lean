import NeuralC.Graph.Edit
import NeuralC.Work

/-!
# NeuralC.Edit

Changes of the graph at work.  They make the graphs that `NeuralC.Graph.Edit` says,
but in place: a new node enters its slot and the order first, and then the nodes at
the other ends of its edges are changed one after another.  A change that is refused
has not begun.  One that finds a neighbour missing stops where it is, and what it
did up to there stays.
-/

namespace NeuralC

namespace Work

/-! ## Nodes -/

/-- Changes the node of a handle that should have one. -/
def modifyNode (h : Handle) (f : Node → Node) : Work Unit := do
  let _ ← node h
  setGraph ((← graph).modify h f)

/-- Changes the nodes of handles, one after another. -/
def modifyEach (f : Node → Node) : List Handle → Work Unit
  | [] => pure ()
  | h :: hs => do
    modifyNode h f
    modifyEach f hs

/-- Puts a new node at a place of the order; the value is its handle. -/
def allocate (n : Node) (place : Nat) : Work Handle := do
  let g ← graph
  setGraph (g.allocate n place)
  return g.fresh

/-- Takes a node out of its slot and out of the order, if the slot has one. -/
def take (h : Handle) : Work (Option Node) := do
  let g ← graph
  match ← attempt (present g.slots[h]?) with
  | none => return none
  | some n =>
    setGraph (g.vacate h)
    return some n

/-! ## Changes -/

/-- Adds the input. -/
def addInput (layer : Layer) : Work Handle := do
  let place ← check ((← graph).inputPlace layer)
  allocate ⟨layer, none, [], []⟩ place

/-- Links a new node between predecessors and successors. -/
def insert (layer : Layer) (preds succs : List Handle) : Work Handle := do
  let place ← check ((← graph).insertPlace layer preds succs)
  let h ← allocate ⟨layer, none, preds, succs⟩ place
  modifyEach (fun n => { n with succs := n.succs ++ [h] }) preds
  modifyEach (fun n => { n with preds := n.preds ++ [h] }) succs
  return h

/-- Deletes a node and joins its neighbours. -/
def delete (h : Handle) : Work Unit := do
  match (← graph).position? h with
  | none => report (.editing s!"n{h}" .notInGraph)
  | some 0 => report (.editing (← node h).name .deletesInput)
  | some _ =>
    match ← take h with
    | none => report (.editing s!"n{h}" .notInGraph)
    | some n =>
      modifyEach (fun m => { m with succs := splice h n.succs m.succs }) n.preds
      modifyEach (fun m => { m with preds := splice h n.preds m.preds }) n.succs

/-- Puts a layer in the place of a node. -/
def replace (old : Handle) (layer : Layer) : Work Handle := do
  match (← graph).position? old with
  | none => report (.editing layer.name (.replacesUnknown old))
  | some place =>
    if place = 0 ∧ !layer.isInput then report (.editing layer.name .replacesInput)
    else match ← take old with
      | none => report (.editing layer.name (.replacesUnknown old))
      | some n =>
        let h ← allocate ⟨layer, none, n.preds, n.succs⟩ place
        modifyNode h fun m => { m with quant := n.quant }
        modifyEach (fun m => { m with succs := splice old [h] m.succs }) n.preds
        modifyEach (fun m => { m with preds := splice old [h] m.preds }) n.succs
        return h

end Work

/-- A call that changes a graph. -/
inductive Edit where
  | addInput (layer : Layer)
  | insert (layer : Layer) (preds succs : List Handle)
  | delete (h : Handle)
  | replace (old : Handle) (layer : Layer)
deriving DecidableEq, Repr

/-- The call on the graph at work; the value is the handle that it gives out. -/
def Edit.call : Edit → Work (Option Handle)
  | addInput layer => do return some (← Work.addInput layer)
  | insert layer preds succs => do return some (← Work.insert layer preds succs)
  | delete h => do
    Work.delete h
    return none
  | replace old layer => do return some (← Work.replace old layer)

end NeuralC
