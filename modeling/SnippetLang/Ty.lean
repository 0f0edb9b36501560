/-!
# Types

The closed set of types.  There are no type constructors: every value is a truth value, a number or
a text, or the empty value of an expression that has none.  `error` is the type of an expression
that was already reported; whatever consumes it stays silent.
-/

namespace SnippetLang

/-- A type of the language. -/
inductive Ty where
  | error   -- of an expression that a diagnostic was reported for
  | bool
  | int     -- 32 bits, signed, wrapping around
  | string
  | void    -- of an expression without a value
deriving DecidableEq

namespace Ty

/-- The name as programs and diagnostics write it. -/
def name : Ty → String
  | error => "?"
  | bool => "bool"
  | int => "int"
  | string => "string"
  | void => "void"

/-- The type that a program can name, which leaves out `error` and `void`. -/
def ofName? (name : String) : Option Ty :=
  if name = "bool" then some bool
  else if name = "int" then some int
  else if name = "string" then some string
  else none

/-- All types, in a fixed order. -/
def all : List Ty := [error, bool, int, string, void]

end Ty

end SnippetLang
