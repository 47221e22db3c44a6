import NeuralC.Diagnostic
import NeuralC.Layer

/-!
# NeuralC.Graph.Basic

Graphs of layers.  A graph keeps its nodes in slots that are numbered by
handles, and an order of the handles in which every node comes after the nodes
it reads.  An edge stands in two lists, with the same multiplicity: among the
successors of its producer and among the predecessors of its reader.  The slot
of a deleted node stays empty, so a handle never comes to mean another node.
-/

namespace NeuralC

/-- The number of a slot. -/
abbrev Handle := Nat

/-- A layer in a graph, with its edges and its quantization record.  The
predecessors are the operands of the layer in order. -/
structure Node where
  layer : Layer
  quant : Option QuantRecord
  preds : List Handle
  succs : List Handle
deriving DecidableEq, Repr

/-- The name of the layer. -/
def Node.name (n : Node) : String := n.layer.name

/-- A graph of layers. -/
structure Graph where
  slots : List (Option Node)
  order : List Handle
deriving DecidableEq, Repr

namespace Graph

/-! ## Reading -/

/-- The graph without nodes. -/
def empty : Graph := ⟨[], []⟩

/-- The node of a handle. -/
def get? (g : Graph) (h : Handle) : Option Node := g.slots[h]?.join

/-- Whether a handle has a node. -/
def contains (g : Graph) (h : Handle) : Bool := (g.get? h).isSome

/-- The node of a handle that should have one. -/
def node (g : Graph) (h : Handle) : Except Failure Node := present (g.get? h)

/-- The name of a node; empty for a handle without node. -/
def nameOf (g : Graph) (h : Handle) : String := ((g.get? h).map Node.name).getD ""

/-- The place of a handle in the order. -/
def position? (g : Graph) (h : Handle) : Option Nat := g.order.idxOf? h

/-- The number of nodes. -/
def size (g : Graph) : Nat := g.order.length

/-- The first node in the order. -/
def input? (g : Graph) : Option Handle := g.order.head?

/-- The last node in the order. -/
def output? (g : Graph) : Option Handle := g.order.getLast?

/-- The nodes in order, which should all be there. -/
def nodes (g : Graph) : Except Failure (List Node) := g.order.mapM g.node

/-- The first node of a name. -/
def find? (g : Graph) (name : String) : Option Handle :=
  g.order.find? fun h => (g.get? h).any fun n => n.name == name

/-- The name of the first node; empty for the empty graph. -/
def inputName (g : Graph) : String := (g.input?.map g.nameOf).getD ""

/-- The handles, in order, of the layers of some kinds. -/
def handlesWhere (g : Graph) (p : LayerKind → Bool) : List Handle :=
  g.order.filter fun h => (g.get? h).any fun n => p n.layer.kind

/-! ## Changing nodes in place -/

/-- The graph with one node changed. -/
def modify (g : Graph) (h : Handle) (f : Node → Node) : Graph :=
  { g with slots := g.slots.modify h (Option.map f) }

/-- The graph with another quantization record at one node. -/
def setQuant (g : Graph) (h : Handle) (q : Option QuantRecord) : Graph :=
  g.modify h fun n => { n with quant := q }

/-- The graph with one layer changed. -/
def modifyLayer (g : Graph) (h : Handle) (f : Layer → Layer) : Graph :=
  g.modify h fun n => { n with layer := f n.layer }

@[simp] theorem order_modify (g : Graph) (h : Handle) (f : Node → Node) :
    (g.modify h f).order = g.order := rfl

theorem get?_modify (g : Graph) (h k : Handle) (f : Node → Node) :
    (g.modify h f).get? k = if h = k then (g.get? k).map f else g.get? k := by
  simp only [modify, get?, List.getElem?_modify]
  split <;> cases g.slots[k]? <;> simp

end Graph

end NeuralC
