import NeuralC.Graph.Basic

/-!
# NeuralC.Graph.Verify

The contract of a graph.  Names are unique; the first node is the only input
and the last the only sink; every other node has predecessors; edges name
nodes of the graph, stand in both lists equally often, and run forward in the
order.  `Graph.verify` reports the first node, in order, that breaks it.
-/

namespace NeuralC

namespace Graph

/-- What is wrong with one predecessor of the node `n` at `place`. -/
def predFault? (g : Graph) (h : Handle) (n : Node) (place : Nat) (p : Handle) :
    Option StructuralCause :=
  match g.get? p with
  | none => some (.danglingPredecessor p)
  | some pred =>
    if pred.succs.count h ≠ n.preds.count p then some (.unmatchedFrom pred.name)
    else if (g.position? p).all (place ≤ ·) then some (.laterPredecessor pred.name)
    else none

/-- What is wrong with one successor of the node `n`. -/
def succFault? (g : Graph) (h : Handle) (n : Node) (s : Handle) : Option StructuralCause :=
  match g.get? s with
  | none => some (.danglingSuccessor s)
  | some succ =>
    if succ.preds.count h ≠ n.succs.count s then some (.unmatchedTo succ.name) else none

/-- What is wrong with the node `n` at `place`, where `earlier` are the names
in front of it. -/
def nodeFault? (g : Graph) (earlier : List String) (h : Handle) (n : Node) (place : Nat) :
    Option StructuralCause :=
  let isFirst := g.order.head? = some h
  let isLast := place + 1 = g.order.length
  if n.name ∈ earlier then some .duplicateName
  else if isFirst ∧ (!n.layer.isInput ∨ n.preds ≠ []) then some .firstNotSource
  else if ¬isFirst ∧ n.layer.isInput then some .secondInput
  else if ¬isFirst ∧ n.preds = [] then some .noPredecessors
  else if ¬isLast ∧ n.succs = [] then some .innerSink
  else if isLast ∧ n.succs ≠ [] then some .lastFeeds
  else (n.preds.findSome? (g.predFault? h n place)).or (n.succs.findSome? (g.succFault? h n))

/-- Checks the nodes of a rest of the order that starts at `place`. -/
def verifyFrom (g : Graph) (earlier : List String) (place : Nat) :
    List Handle → Except Diagnostic Unit
  | [] => .ok ()
  | h :: rest =>
    match g.get? h with
    | none => .error (.editing s!"n{h}" .missingNode)
    | some n =>
      match g.nodeFault? earlier h n place with
      | some cause => .error (.editing n.name cause)
      | none => g.verifyFrom (n.name :: earlier) (place + 1) rest

/-- Checks the whole contract. -/
def verify (g : Graph) : Except Diagnostic Unit :=
  if g.order.isEmpty then .error (.editing "<graph>" .emptyGraph)
  else g.verifyFrom [] 0 g.order

/-- Whether every node comes after all of its predecessors. -/
def isTopological (g : Graph) : Bool :=
  g.order.zipIdx.all fun (h, place) =>
    (g.get? h).all fun n => n.preds.all fun p => (g.position? p).any (· < place)

end Graph

end NeuralC
