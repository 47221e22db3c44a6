import NeuralC.Graph.Basic

/-!
# NeuralC.Graph.Show

Two renderings of a graph: a table with a block of rows per layer, and its
edges in the dot language.
-/

namespace NeuralC

/-- The text filled up with spaces to 24 characters. -/
def column (text : String) : String :=
  text ++ String.ofList (List.replicate (24 - text.length) ' ')

/-- One row of the table. -/
def tableRow (inputs layer outputs inputShape outputShape : String) : String :=
  " | ".intercalate ([inputs, layer, outputs, inputShape, outputShape].map column) ++ "\n"

/-- The line between the blocks of the table. -/
def tableRule : String := String.ofList (List.replicate 132 '-') ++ "\n"

namespace Graph

/-- The block of rows of one layer, as many as its longest list needs. -/
def tableBlock (g : Graph) (n : Node) : String :=
  let inputs := n.preds.map g.nameOf
  let outputs := n.succs.map g.nameOf
  let shapes := n.layer.inputShapes.map Text.showNats
  let rows := max (max (max inputs.length outputs.length) shapes.length) 1
  let row (i : Nat) : String :=
    tableRow (inputs[i]?.getD "") (if i = 0 then s!"{n.name} ({n.layer.kind.name})" else "")
      (outputs[i]?.getD "") (shapes[i]?.getD "")
      (if i = 0 then Text.showNats n.layer.outputShape else "")
  String.join ((List.range rows).map row) ++ tableRule

/-- The table of all layers. -/
def table (g : Graph) : String :=
  tableRule ++ tableRow "Inputs" "Layer" "Outputs" "Input shape" "Output shape" ++ tableRule ++
    String.join ((g.order.filterMap g.get?).map g.tableBlock)

/-- The names at both ends of every edge, in order. -/
def edgeNames (g : Graph) : Except Failure (List (String × String)) := do
  let edges ← (← g.nodes).mapM fun n => n.succs.mapM fun s => do return (n.name, (← g.node s).name)
  return edges.flatten

/-- Named edges in the dot language. -/
def dotText (edges : List (String × String)) : String :=
  let lines := edges.map fun (a, b) => "\t\"" ++ a ++ "\" -> \"" ++ b ++ "\"\n"
  "digraph \x7b\n" ++ String.join lines ++ "\x7d\n"

/-- The edges in the dot language. -/
def dot (g : Graph) : String := dotText (g.edgeNames.toOption.getD [])

end Graph

end NeuralC
