import NeuralC.Activation
import NeuralC.Arithmetic
import NeuralC.Bundle
import NeuralC.C.Array
import NeuralC.C.Code
import NeuralC.C.Elementwise
import NeuralC.C.HexFloat
import NeuralC.C.LayerFile
import NeuralC.C.Model
import NeuralC.C.Numbers
import NeuralC.C.Rearrange
import NeuralC.C.Reduction
import NeuralC.C.Render
import NeuralC.C.Template
import NeuralC.C.Weighted
import NeuralC.Calibration.Annotate
import NeuralC.Calibration.Table
import NeuralC.Command
import NeuralC.Command.Options
import NeuralC.Compile
import NeuralC.Diagnostic
import NeuralC.Diagnostic.Cause
import NeuralC.Edit
import NeuralC.Emit
import NeuralC.Evaluate
import NeuralC.Files.Disk
import NeuralC.Files.Path
import NeuralC.Files.Tree
import NeuralC.FixedPoint
import NeuralC.Graph.Basic
import NeuralC.Graph.Edit
import NeuralC.Graph.Show
import NeuralC.Graph.Verify
import NeuralC.Layer
import NeuralC.Main
import NeuralC.Memory.Liveness
import NeuralC.Memory.Plan
import NeuralC.Model.Declaration
import NeuralC.Model.Line
import NeuralC.Model.Parse
import NeuralC.Number
import NeuralC.Proofs.C.Definitions
import NeuralC.Proofs.C.HexFloat
import NeuralC.Proofs.C.Initializer
import NeuralC.Proofs.Calibration.Resolution
import NeuralC.Proofs.Calibration.Scales
import NeuralC.Proofs.Calibration.Table
import NeuralC.Proofs.Calibration.Written
import NeuralC.Proofs.Compile.Allocate
import NeuralC.Proofs.Compile.Annotate
import NeuralC.Proofs.Compile.Buffers
import NeuralC.Proofs.Compile.Conversion
import NeuralC.Proofs.Compile.Extents
import NeuralC.Proofs.Compile.Guards
import NeuralC.Proofs.Compile.Macros
import NeuralC.Proofs.Compile.Numbers
import NeuralC.Proofs.Compile.Passes
import NeuralC.Proofs.Compile.Paths
import NeuralC.Proofs.Compile.Pipeline
import NeuralC.Proofs.Compile.Recast
import NeuralC.Proofs.Compile.Render
import NeuralC.Proofs.Compile.Safe
import NeuralC.Proofs.Compile.Weights
import NeuralC.Proofs.Evaluate.Convolution
import NeuralC.Proofs.Evaluate.Exact
import NeuralC.Proofs.Evaluate.Padding
import NeuralC.Proofs.Evaluate.Solution
import NeuralC.Proofs.Files.Path
import NeuralC.Proofs.Files.Tree
import NeuralC.Proofs.Files.Write
import NeuralC.Proofs.FixedPoint.Double
import NeuralC.Proofs.FixedPoint.Rounding
import NeuralC.Proofs.Graph.Calls
import NeuralC.Proofs.Graph.Contract
import NeuralC.Proofs.Graph.Deletions
import NeuralC.Proofs.Graph.Edits
import NeuralC.Proofs.Graph.Histories
import NeuralC.Proofs.Graph.Reach
import NeuralC.Proofs.Graph.Splice
import NeuralC.Proofs.Graph.Substitution
import NeuralC.Proofs.Graph.Trail
import NeuralC.Proofs.Graph.Verify
import NeuralC.Proofs.Graph.WellFormed
import NeuralC.Proofs.Memory.Demand
import NeuralC.Proofs.Memory.Descent
import NeuralC.Proofs.Memory.Execution
import NeuralC.Proofs.Memory.Partition
import NeuralC.Proofs.Memory.Placement
import NeuralC.Proofs.Memory.Refusal
import NeuralC.Proofs.Model.Build
import NeuralC.Proofs.Model.Document
import NeuralC.Proofs.Model.Progress
import NeuralC.Proofs.Model.Rearranged
import NeuralC.Proofs.Model.Reports
import NeuralC.Proofs.Model.Supply
import NeuralC.Proofs.Model.Token
import NeuralC.Proofs.Model.Written
import NeuralC.Proofs.Simplify.Activation
import NeuralC.Proofs.Simplify.Bypass
import NeuralC.Proofs.Simplify.Contract
import NeuralC.Proofs.Simplify.FixedPoint
import NeuralC.Proofs.Simplify.Identifiers
import NeuralC.Proofs.Simplify.Names
import NeuralC.Proofs.Simplify.Padding
import NeuralC.Proofs.Simplify.PaddingEvaluate
import NeuralC.Proofs.Simplify.Remove
import NeuralC.Proofs.Simplify.RemoveEvaluate
import NeuralC.Proofs.Simplify.Shapes
import NeuralC.Proofs.Simplify.Sources
import NeuralC.Proofs.Size
import NeuralC.Proofs.Text.Fields
import NeuralC.Proofs.Work
import NeuralC.Quantize
import NeuralC.Session
import NeuralC.Simplify
import NeuralC.Simplify.Activation
import NeuralC.Simplify.Names
import NeuralC.Simplify.Padding
import NeuralC.Simplify.Remove
import NeuralC.Size
import NeuralC.Tensor
import NeuralC.Text.Blank
import NeuralC.Text.Bracketed
import NeuralC.Text.Decimal
import NeuralC.Text.Hidden
import NeuralC.Text.Numeral
import NeuralC.Text.Plain
import NeuralC.Text.Upper
import NeuralC.Validate
import NeuralC.Work
