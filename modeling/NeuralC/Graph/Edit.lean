import NeuralC.Graph.Basic

/-!
# NeuralC.Graph.Edit

The four changes of a graph: adding its input, linking a new node between
existing ones, deleting a node while its neighbours are joined, and putting
another layer in the place of a node.  A change that is refused gives a report
and no graph.  `NeuralC.Edit` makes the same changes in place.
-/

namespace NeuralC

/-- The list with the first occurrence of `target` replaced by `items`. -/
def splice (target : Handle) (items : List Handle) : List Handle → List Handle
  | [] => []
  | x :: xs => if x = target then items ++ xs else x :: splice target items xs

namespace Graph

/-- The handle the next node gets. -/
def fresh (g : Graph) : Handle := g.slots.length

/-- The graph with a new node at a place of the order. -/
def allocate (g : Graph) (n : Node) (place : Nat) : Graph :=
  ⟨g.slots ++ [some n], g.order.insertIdx place g.fresh⟩

/-- The place of an input, which has to be the first node. -/
def inputPlace (g : Graph) (layer : Layer) : Except Diagnostic Nat :=
  if !g.order.isEmpty then .error (.editing layer.name .inputExists)
  else if !layer.isInput then .error (.editing layer.name (.firstNotInput layer.kind.name))
  else .ok 0

/-- Adds the input. -/
def addInput (g : Graph) (layer : Layer) : Except Diagnostic (Graph × Handle) :=
  match g.inputPlace layer with
  | .error d => .error d
  | .ok place => .ok (g.allocate ⟨layer, none, [], []⟩ place, g.fresh)

/-- The place of a new node in the order: right before its earliest successor,
else at the end. -/
def insertionPoint (g : Graph) (succs : List Handle) : Nat :=
  (succs.filterMap g.position?).min?.getD g.order.length

/-- Adds a successor to every node of a list, once per occurrence. -/
def feed (g : Graph) (h : Handle) (preds : List Handle) : Graph :=
  preds.foldl (fun g p => g.modify p fun n => { n with succs := n.succs ++ [h] }) g

/-- Adds a predecessor to every node of a list, once per occurrence. -/
def draw (g : Graph) (h : Handle) (succs : List Handle) : Graph :=
  succs.foldl (fun g s => g.modify s fun n => { n with preds := n.preds ++ [h] }) g

/-- The place of a new node, which has to come behind its predecessors. -/
def insertPlace (g : Graph) (layer : Layer) (preds succs : List Handle) :
    Except Diagnostic Nat :=
  if g.order.isEmpty then .error (.editing layer.name .noInput)
  else match (preds ++ succs).find? (fun h => !g.contains h) with
    | some h => .error (.editing layer.name (.unknownNeighbour h))
    | none =>
      let place := g.insertionPoint succs
      if place = 0 then .error (.editing layer.name .beforeInput)
      else match preds.find? (fun p => (g.position? p).any (place ≤ ·)) with
        | some p => .error (.editing layer.name (.latePredecessor (g.nameOf p)))
        | none => .ok place

/-- Links a new node between predecessors and successors. -/
def insert (g : Graph) (layer : Layer) (preds succs : List Handle) :
    Except Diagnostic (Graph × Handle) :=
  match g.insertPlace layer preds succs with
  | .error d => .error d
  | .ok place =>
    let h := g.fresh
    .ok (((g.allocate ⟨layer, none, preds, succs⟩ place).feed h preds).draw h succs, h)

/-- Replaces, in the successors of every node of a list, one occurrence of
`h` by `items`, once per occurrence in the list. -/
def spliceSuccs (g : Graph) (h : Handle) (items preds : List Handle) : Graph :=
  preds.foldl (fun g p => g.modify p fun n => { n with succs := splice h items n.succs }) g

/-- Replaces, in the predecessors of every node of a list, one occurrence of
`h` by `items`, once per occurrence in the list. -/
def splicePreds (g : Graph) (h : Handle) (items succs : List Handle) : Graph :=
  succs.foldl (fun g s => g.modify s fun n => { n with preds := splice h items n.preds }) g

/-- The graph with an empty slot in place of a node. -/
def vacate (g : Graph) (h : Handle) : Graph := ⟨g.slots.set h none, g.order.erase h⟩

/-- Deletes a node.  In the lists of its neighbours, each edge to the node
gives way to the node's own edges on the other side, in order. -/
def delete (g : Graph) (h : Handle) : Except Diagnostic Graph :=
  match g.position? h, g.get? h with
  | some place, some n =>
    if place = 0 then .error (.editing n.name .deletesInput)
    else .ok (((g.vacate h).spliceSuccs h n.succs n.preds).splicePreds h n.preds n.succs)
  | _, _ => .error (.editing s!"n{h}" .notInGraph)

/-- Puts a layer in the place of a node.  The new node takes over the edges,
the record and the place in the order, under a new handle. -/
def replace (g : Graph) (old : Handle) (layer : Layer) : Except Diagnostic (Graph × Handle) :=
  match g.position? old, g.get? old with
  | some place, some n =>
    if place = 0 ∧ !layer.isInput then .error (.editing layer.name .replacesInput)
    else
      let h := g.fresh
      let g' := (g.vacate old).allocate { n with layer := layer } place
      .ok ((g'.spliceSuccs old [h] n.preds).splicePreds old [h] n.succs, h)
  | _, _ => .error (.editing layer.name (.replacesUnknown old))

end Graph

end NeuralC
