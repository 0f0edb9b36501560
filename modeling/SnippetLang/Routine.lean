import SnippetLang.Function
import SnippetLang.Text.Capital

/-!
# Native routines

What calls and conversions execute.  The table is closed.  A function finds its routine by its own
name with the first letter in upper case, a conversion by the names of its two types with `To`
between them, both capitalised; a name that is not in the table has no routine.
-/

namespace SnippetLang

/-- A native routine. -/
inductive Routine where
  | print
  | input
  | rnd
  | boolToString
  | intToString
  | stringToBool
  | stringToInt
deriving DecidableEq

namespace Routine

/-- The name in the table. -/
def name : Routine → String
  | print => "Print"
  | input => "Input"
  | rnd => "Rnd"
  | boolToString => "BoolToString"
  | intToString => "IntToString"
  | stringToBool => "StringToBool"
  | stringToInt => "StringToInt"

/-- All routines. -/
def all : List Routine :=
  [print, input, rnd, boolToString, intToString, stringToBool, stringToInt]

/-- The routine of a name in the table. -/
def ofName? (name : String) : Option Routine := all.find? (·.name == name)

/-- The types of the arguments. -/
def parameters : Routine → List Ty
  | input => []
  | print | stringToBool | stringToInt => [.string]
  | rnd | intToString => [.int]
  | boolToString => [.bool]

/-- The type of the result. -/
def result : Routine → Ty
  | print => .void
  | rnd | stringToInt => .int
  | stringToBool => .bool
  | input | boolToString | intToString => .string

/-- The name under which a function looks for its routine. -/
def functionName (f : Function) : String := Text.capitalise f.name

/-- The name under which a conversion looks for its routine. -/
def conversionName (source target : Ty) : String :=
  Text.capitalise source.name ++ "To" ++ Text.capitalise target.name

end Routine

end SnippetLang
