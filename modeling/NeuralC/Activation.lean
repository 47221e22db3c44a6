/-!
# NeuralC.Activation

Activation functions, and which of them compose into one.
-/

namespace NeuralC

/-- The function applied to the output of a layer.  `fire` is the spiking
integrate-and-fire activation, which can be described but not generated. -/
inductive Activation where
  | linear
  | relu
  | relu6
  | softmax
  | fire
deriving DecidableEq, Repr

namespace Activation

/-- The word for an activation. -/
def name : Activation → String
  | linear => "linear"
  | relu => "relu"
  | relu6 => "relu6"
  | softmax => "softmax"
  | fire => "if"

/-- Reads an activation in any letter case; failing that, gives the lower case
text that was looked up. -/
def read (text : String) : Except String Activation :=
  let word := text.map Char.toLower
  if word = "linear" then .ok linear
  else if word = "relu" then .ok relu
  else if word = "relu6" then .ok relu6
  else if word = "softmax" then .ok softmax
  else if word = "if" then .ok fire
  else .error word

/-- What is said of a word that is no activation. -/
def unknownMessage (word : String) : String := s!"unknown activation '{word}'"

/-- The activation that equals `inner` followed by `outer`.  Only the linear
and the clipping activations compose. -/
def compose (inner outer : Activation) : Option Activation :=
  match inner, outer with
  | linear, f => some f
  | f, linear => some f
  | relu, relu => some relu
  | relu6, relu6 => some relu6
  | relu, relu6 => some relu6
  | relu6, relu => some relu6
  | _, _ => none

end Activation

end NeuralC
