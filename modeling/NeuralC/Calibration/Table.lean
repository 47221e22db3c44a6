import NeuralC.Diagnostic
import NeuralC.Text.Numeral

/-!
# NeuralC.Calibration.Table

Calibration data: scale factors and rounding measured for the layers of a
trained model.  Each line of the data names a layer and gives, between commas,
the scale factors of its input, activation, weights and bias and the rounding
of its input, activation and weights; `None` stands for a value that is
absent.  A later line for a layer replaces an earlier one in its place.
-/

namespace NeuralC.Calibration

open NeuralC.Text

/-- The data of one layer. -/
structure Entry where
  inputScale : Option Int
  activationScale : Option Int
  weightsScale : Option Int
  biasScale : Option Int
  inputRound : Option RoundMode
  activationRound : Option RoundMode
  weightsRound : Option RoundMode
deriving DecidableEq, Repr

/-- The quantization record that an entry describes in some format. -/
def Entry.toRecord (e : Entry) (format : NumberFormat) : QuantRecord where
  kind := format.kind
  width := format.width
  longWidth := format.longWidth
  weightsScale := e.weightsScale
  biasScale := e.biasScale
  outputScale := e.activationScale
  weightsRound := e.weightsRound
  outputRound := e.activationRound

/-- Entries by layer name, in the order of the first line for each name. -/
structure Table where
  entries : List (String × Entry)
deriving DecidableEq, Repr

namespace Table

/-- The table without entries. -/
def empty : Table := ⟨[]⟩

/-- The entry of a layer. -/
def get? (t : Table) (name : String) : Option Entry := (t.entries.find? (·.1 = name)).map (·.2)

/-- Whether there are no entries. -/
def isEmpty (t : Table) : Bool := t.entries.isEmpty

/-- The number of entries. -/
def size (t : Table) : Nat := t.entries.length

/-- Puts an entry into a list of entries. -/
def put (name : String) (e : Entry) : List (String × Entry) → List (String × Entry)
  | [] => [(name, e)]
  | (other, old) :: rest =>
    if other = name then (other, e) :: rest else (other, old) :: put name e rest

/-- The table with an entry added, or replaced in its place. -/
def insert (t : Table) (name : String) (e : Entry) : Table := ⟨put name e t.entries⟩

end Table

/-! ## Reading -/

/-- A scale factor, or its absence. -/
def scale (field : List Char) : Except CalibrationCause (Option Int) :=
  if String.ofList field = "None" then .ok none
  else match signed32? field with
    | some i => .ok (some i)
    | none => .error (.badScale (String.ofList field))

/-- A round mode, or its absence. -/
def round (field : List Char) : Except CalibrationCause (Option RoundMode) :=
  if String.ofList field = "None" then .ok none
  else match RoundMode.read (String.ofList field) with
    | .ok m => .ok (some m)
    | .error w => .error (.badRoundMode w)

/-- The layer and the entry of a line. -/
def line (raw : List Char) : Except CalibrationCause (String × Entry) :=
  match (fields ',' raw).map trim with
  | [name, input, activation, weights, bias, inputRound, activationRound, weightsRound] => do
    let e : Entry := {
      inputScale := ← scale input
      activationScale := ← scale activation
      weightsScale := ← scale weights
      biasScale := ← scale bias
      inputRound := ← round inputRound
      activationRound := ← round activationRound
      weightsRound := ← round weightsRound }
    return (String.ofList name, e)
  | found => .error (.fieldCount found.length)

/-- What has been read of the lines so far: the table, and the scale factor and
the rounding of an input, once a line has given them. -/
structure Reading where
  table : Table
  inputScale : Option Int
  inputRound : Option RoundMode
deriving DecidableEq, Repr

namespace Reading

/-- Nothing has been read. -/
def start : Reading := ⟨.empty, none, none⟩

/-- Adds the entry of a line. -/
def add (r : Reading) (name : String) (e : Entry) : Reading where
  table := r.table.insert name e
  inputScale := r.inputScale.or e.inputScale
  inputRound := r.inputRound.or e.inputRound

/-- The entry for an input that the lines do not name. -/
def inputEntry (r : Reading) : Entry where
  inputScale := r.inputScale
  activationScale := r.inputScale
  weightsScale := some 0
  biasScale := none
  inputRound := r.inputRound
  activationRound := r.inputRound
  weightsRound := none

/-- The table with an entry for the input of the model. -/
def complete (r : Reading) (input : String) : Table :=
  if r.table.isEmpty ∨ (r.table.get? input).isSome then r.table
  else r.table.insert input r.inputEntry

end Reading

/-- Reads lines that start at a line number; blank lines are skipped. -/
def readLines (r : Reading) (number : Nat) : List (List Char) → Except Diagnostic Reading
  | [] => .ok r
  | raw :: rest =>
    if (trim raw).isEmpty then readLines r (number + 1) rest
    else match line raw with
      | .error cause => .error (.calibration number cause)
      | .ok (name, e) => readLines (r.add name e) (number + 1) rest

/-- Reads calibration data for a model whose input has the given name. -/
def parse (text : String) (input : String) : Except Diagnostic Table :=
  match readLines .start 1 (Text.lines text.toList) with
  | .error d => .error d
  | .ok r => .ok (r.complete input)

end NeuralC.Calibration
