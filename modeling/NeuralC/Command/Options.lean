import NeuralC.Number

/-!
# NeuralC.Command.Options

The command line.  Switches can stand anywhere in front of the second
positional argument; from there on, and behind `--`, everything is positional.
A value follows its switch as the next argument, behind an equals sign, or
right behind the letter of a short switch; letters without values can be
joined.
-/

namespace NeuralC.Command

/-! ## Switches -/

/-- The named arguments. -/
inductive Switch where
  | quantize
  | calibration
  | output
  | singleFile
  | verbose
  | help
  | version
deriving DecidableEq, Repr

namespace Switch

/-- The word for a switch. -/
def name : Switch → String
  | quantize => "--quantize"
  | calibration => "--calibration"
  | output => "--output"
  | singleFile => "--single-file"
  | verbose => "-v"
  | help => "--help"
  | version => "--version"

/-- Whether a switch has a value. -/
def takesValue : Switch → Bool
  | quantize | calibration | output => true
  | _ => false

/-- The switch of a word behind two dashes. -/
def ofWord? (word : String) : Option Switch :=
  if word = "quantize" then some quantize
  else if word = "calibration" then some calibration
  else if word = "output" then some output
  else if word = "single-file" then some singleFile
  else if word = "help" then some help
  else if word = "version" then some version
  else none

/-- The switch of a letter behind one dash. -/
def ofLetter? (c : Char) : Option Switch :=
  if c = 'q' then some quantize
  else if c = 'c' then some calibration
  else if c = 'o' then some output
  else if c = 'v' then some verbose
  else if c = 'h' then some help
  else if c = 'V' then some version
  else none

end Switch

/-! ## Faults -/

/-- What is wrong with a command line. -/
inductive UsageFault where
  | unknown (argument : String)
  | missingValue (s : Switch)
  | unexpectedValue (s : Switch) (value : String)
  | emptyValue (what : String)
  | badFormat (text : String)
  | repeated (s : Switch)
  | missingModel
deriving DecidableEq, Repr

/-- The words for a fault. -/
def UsageFault.message : UsageFault → String
  | unknown argument => s!"unexpected argument '{argument}'"
  | missingValue s => s!"a value is required for '{s.name}'"
  | unexpectedValue s value => s!"unexpected value '{value}' for '{s.name}'"
  | emptyValue what => s!"the value of '{what}' is empty"
  | badFormat text => NumberFormat.unknownMessage text
  | repeated s => s!"the argument '{s.name}' cannot be used multiple times"
  | missingModel => "a model file is required"

/-- Why a command line does not lead to a compilation. -/
inductive Stop where
  | fault (f : UsageFault)
  | help
  | version
deriving DecidableEq, Repr

/-! ## Reading -/

/-- The arguments read so far. -/
structure Arguments where
  model : Option String := none
  format : Option NumberFormat := none
  calibration : Option String := none
  output : Option String := none
  singleFile : Bool := false
  verbosity : Nat := 0
  modules : List String := []
deriving DecidableEq, Repr

/-- The value of a path, which is not empty. -/
def pathValue (what value : String) : Except Stop (Option String) :=
  if value = "" then .error (.fault (.emptyValue what)) else .ok (some value)

/-- Takes in a switch with its value. -/
def setValue (s : Switch) (value : String) (a : Arguments) : Except Stop Arguments :=
  match s with
  | .quantize =>
    match NumberFormat.read? value with
    | none => .error (.fault (.badFormat value))
    | some f =>
      if a.format.isSome then .error (.fault (.repeated s)) else .ok { a with format := some f }
  | .calibration =>
    if a.calibration.isSome then .error (.fault (.repeated s))
    else do return { a with calibration := ← pathValue s.name value }
  | .output =>
    if a.output.isSome then .error (.fault (.repeated s))
    else do return { a with output := ← pathValue s.name value }
  | _ => .error (.fault (.unexpectedValue s value))

/-- Takes in a switch without value.  Help and version end the reading. -/
def raise (s : Switch) (a : Arguments) : Except Stop Arguments :=
  match s with
  | .singleFile =>
    if a.singleFile then .error (.fault (.repeated s)) else .ok { a with singleFile := true }
  | .verbose => .ok { a with verbosity := a.verbosity + 1 }
  | .help => .error .help
  | .version => .error .version
  | _ => .error (.fault (.missingValue s))

/-- Takes in the letters of a short argument.  A switch that still waits for
its value is given beside the arguments. -/
def readLetters : List Char → Arguments → Except Stop (Arguments × Option Switch)
  | [], a => .ok (a, none)
  | c :: cs, a =>
    match Switch.ofLetter? c with
    | none => .error (.fault (.unknown s!"-{c}"))
    | some s =>
      if s.takesValue then
        match cs with
        | [] => .ok (a, some s)
        | '=' :: value => do return (← setValue s (String.ofList value) a, none)
        | value => do return (← setValue s (String.ofList value) a, none)
      else
        match raise s a with
        | .error stop => .error stop
        | .ok a => readLetters cs a

/-- Takes in a long argument, given without its dashes. -/
def readWord (text : List Char) (a : Arguments) : Except Stop (Arguments × Option Switch) :=
  let word := String.ofList (text.takeWhile (· ≠ '='))
  match Switch.ofWord? word, text.dropWhile (· ≠ '=') with
  | none, _ => .error (.fault (.unknown s!"--{word}"))
  | some s, [] =>
    if s.takesValue then .ok (a, some s) else do return (← raise s a, none)
  | some s, _ :: value => do return (← setValue s (String.ofList value) a, none)

/-- Whether an argument looks like a switch. -/
def isSwitch (arg : String) : Bool :=
  match arg.toList with
  | '-' :: _ :: _ => true
  | _ => false

/-- Takes in positional arguments: the model, then everything else. -/
def readPositional : List String → Arguments → Except Stop Arguments
  | [], a => .ok a
  | arg :: rest, a =>
    match a.model with
    | some _ => .ok { a with modules := arg :: rest }
    | none =>
      match pathValue "MODEL" arg with
      | .error stop => .error stop
      | .ok model => readPositional rest { a with model := model }

/-- Takes in arguments one after another. -/
def readArguments : List String → Arguments → Except Stop Arguments
  | [], a => .ok a
  | arg :: rest, a =>
    if arg = "--" then readPositional rest a
    else
      let switches := match arg.toList with
        | '-' :: '-' :: text => some (readWord text a)
        | '-' :: c :: cs => some (readLetters (c :: cs) a)
        | _ => none
      match switches with
      | some (.error stop) => .error stop
      | some (.ok (a, none)) => readArguments rest a
      | some (.ok (a, some s)) =>
        match rest with
        | [] => .error (.fault (.missingValue s))
        | value :: rest =>
          if isSwitch value then .error (.fault (.missingValue s))
          else match setValue s value a with
            | .error stop => .error stop
            | .ok a => readArguments rest a
      | none =>
        match a.model with
        | some _ => readPositional (arg :: rest) a
        | none =>
          match pathValue "MODEL" arg with
          | .error stop => .error stop
          | .ok model => readArguments rest { a with model := model }

/-- What a command line asks for. -/
structure Options where
  model : String
  format : NumberFormat
  calibration : Option String
  output : Option String
  singleFile : Bool
  verbosity : Nat
  modules : List String
deriving DecidableEq, Repr

/-- Reads a command line.  Without another format, numbers are floating
point. -/
def Options.read (args : List String) : Except Stop Options :=
  match readArguments args {} with
  | .error stop => .error stop
  | .ok a =>
    match a.model with
    | none => .error (.fault .missingModel)
    | some model => .ok {
        model := model
        format := a.format.getD .float32
        calibration := a.calibration
        output := a.output
        singleFile := a.singleFile
        verbosity := a.verbosity
        modules := a.modules }

end NeuralC.Command
