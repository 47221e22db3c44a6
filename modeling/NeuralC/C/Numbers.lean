import NeuralC.C.Code

/-!
# NeuralC.C.Numbers

The header of the number types.  For every C type that values are held in it
has bounds and five functions, and for every two of them a conversion.  The
functions of the header are data (`numberFunctions`), so that it can be said
which of them it defines.
-/

namespace NeuralC.C

/-- A function of a header. -/
structure InlineFunction where
  result : String
  name : String
  parameters : String
  body : Code
deriving DecidableEq, Repr

/-- The definition of a function. -/
def InlineFunction.code (f : InlineFunction) : Code :=
  braced s!"static inline {f.result} {f.name}({f.parameters})" f.body

/-- The types of a set that values are held in, each C type once. -/
def distinctTypes (seen : List String) : List NumberType → List NumberType
  | [] => []
  | t :: ts =>
    if t.cName ∈ seen then distinctTypes seen ts
    else t :: distinctTypes (t.cName :: seen) ts

/-- The word for a C type in the names of its bounds. -/
def boundWord (t : NumberType) : String := Text.upper t.cName

/-- The bounds of a type.  The least integer is written as a difference, since
C has no negative literals. -/
def boundLines (t : NumberType) : Code :=
  let word := boundWord t
  match t.kind with
  | .integer => lines [
      s!"#define NUMBER_MIN_{word} ({t.min + 1} - 1)",
      s!"#define NUMBER_MAX_{word} {t.max}"]
  | .float => lines [
      s!"#define NUMBER_MIN_{word} -INFINITY",
      s!"#define NUMBER_MAX_{word} INFINITY"]

/-- The lesser of two values. -/
def minFunction (t : NumberType) : InlineFunction where
  result := t.cName
  name := s!"min_{t.cName}"
  parameters := s!"{t.cName} a, {t.cName} b"
  body := line "return a <= b ? a : b;"

/-- The greater of two values. -/
def maxFunction (t : NumberType) : InlineFunction where
  result := t.cName
  name := s!"max_{t.cName}"
  parameters := s!"{t.cName} a, {t.cName} b"
  body := line "return a >= b ? a : b;"

/-- Division by a power of two, rounded. -/
def scaleFunction (t : NumberType) : InlineFunction where
  result := t.longCName
  name := s!"scale_number_t_{t.cName}"
  parameters := s!"{t.longCName} number, int scale_factor, int round_mode"
  body := match t.kind with
    | .integer =>
      when "scale_factor <= 0" (lines [
        "// Negative scale factor is a left shift",
        s!"return number * (({t.longCName})1 << -scale_factor);"]) ++
      when "round_mode == ROUND_MODE_NEAREST"
        (line s!"number += ({t.longCName})1 << (scale_factor - 1);") ++
      line "return number >> scale_factor;"
    | .float => lines ["(void)scale_factor;", "(void)round_mode;", "return number;"]

/-- The nearest value of the type. -/
def clampFunction (t : NumberType) : InlineFunction where
  result := t.cName
  name := s!"clamp_to_number_t_{t.cName}"
  parameters := s!"{t.longCName} number"
  body :=
    let word := boundWord t
    let cast := line s!"return ({t.cName})number;"
    match t.kind with
    | .integer =>
      when s!"number < NUMBER_MIN_{word}" (line s!"return NUMBER_MIN_{word};") ++
      when s!"number > NUMBER_MAX_{word}" (line s!"return NUMBER_MAX_{word};") ++ cast
    | .float => cast

/-- Division by a power of two, then the nearest value of the type. -/
def scaleAndClampFunction (t : NumberType) : InlineFunction where
  result := t.cName
  name := s!"scale_and_clamp_to_number_t_{t.cName}"
  parameters := s!"{t.longCName} number, int scale_factor, int round_mode"
  body := line (s!"return clamp_to_number_t_{t.cName}" ++
    s!"(scale_number_t_{t.cName}(number, scale_factor, round_mode));")

/-- The functions of one type. -/
def helperFunctions (t : NumberType) : List InlineFunction :=
  [minFunction t, maxFunction t, scaleFunction t, clampFunction t, scaleAndClampFunction t]

/-- The name of the conversion between two C types. -/
def conversionName (source target : String) : String := s!"{source}_to_{target}"

/-- One converted element.  The scale factor is the one of the side in fixed
point. -/
def convertedElement (source target : NumberType) : String :=
  match source.kind, target.kind with
  | .integer, .float => s!"({target.cName})ldexp((double)input[x], -scale_factor)"
  | .float, .integer => s!"clamp_to_number_t_{target.cName}" ++
      s!"(({target.longCName})floor(ldexp((double)input[x], scale_factor)))"
  | .integer, .integer => s!"clamp_to_number_t_{target.cName}(({target.longCName})input[x])"
  | .float, .float => s!"({target.cName})input[x]"

/-- The conversion of an array from one type to another. -/
def conversionFunction (source target : NumberType) : InlineFunction where
  result := "void"
  name := conversionName source.cName target.cName
  parameters := s!"const {source.cName} *input, {target.cName} *output, " ++
    "size_t size, int scale_factor"
  body := line "size_t x;" ++
    (if source.kind = target.kind then line "(void)scale_factor;" else []) ++
    count "x" "size" (line s!"output[x] = {convertedElement source target};")

/-- The conversions among types. -/
def conversionFunctions (ts : List NumberType) : List InlineFunction :=
  ts.flatMap fun source =>
    (ts.filter fun target => source.cName ≠ target.cName).map (conversionFunction source)

/-- All functions of the header, in order. -/
def numberFunctions (types : NumberTypes) : List InlineFunction :=
  let ts := distinctTypes [] types.toList
  ts.flatMap helperFunctions ++ conversionFunctions ts

/-- Functions with an empty line in front of each. -/
def spaced (fs : List InlineFunction) : Code := fs.flatMap fun f => blank ++ f.code

/-- The part of the header for one type. -/
def typeSection (t : NumberType) : Code := blank ++ boundLines t ++ spaced (helperFunctions t)

/-- The header of the number types. -/
def numberHeader (types : NumberTypes) : Code :=
  let ts := distinctTypes [] types.toList
  lines ["#ifndef _NUMBER_H_", "#define _NUMBER_H_", "",
    "#include <stdint.h>", "#include <stddef.h>", "#include <math.h>", ""] ++
  includes ["defines.h"] ++
  lines ["",
    "#define ROUND_MODE_NONE 0",
    "#define ROUND_MODE_FLOOR 1",
    "#define ROUND_MODE_NEAREST 2",
    "",
    "#define _clamp_to(type, number) clamp_to_number_t_ ## type (number)",
    "#define clamp_to(type, number) _clamp_to(type, number)",
    "#define _scale(type, number, scale_factor, round_mode) " ++
      "scale_number_t_ ## type (number, scale_factor, round_mode)",
    "#define scale(type, number, scale_factor, round_mode) " ++
      "_scale(type, number, scale_factor, round_mode)",
    "#define _scale_and_clamp_to(type, number, scale_factor, round_mode) " ++
      "scale_and_clamp_to_number_t_ ## type (number, scale_factor, round_mode)",
    "#define scale_and_clamp_to(type, number, scale_factor, round_mode) " ++
      "_scale_and_clamp_to(type, number, scale_factor, round_mode)"] ++
  ts.flatMap typeSection ++
  spaced (conversionFunctions ts) ++
  lines ["", "#endif // _NUMBER_H_"]

end NeuralC.C
