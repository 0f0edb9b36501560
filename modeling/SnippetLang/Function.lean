import SnippetLang.Ty

/-!
# Functions

The functions that a program can call by name.  There are three, all built in; conversions are
written like calls too, with the name of a type, but are not functions.
-/

namespace SnippetLang

/-- A parameter of a function. -/
structure Parameter where
  name : String
  ty : Ty
deriving DecidableEq

/-- A function as its callers see it. -/
structure Function where
  name : String
  parameters : List Parameter
  ty : Ty                      -- the type of its result
deriving DecidableEq

namespace Function

/-- Writes a text and a line feed. -/
def print : Function := ⟨"print", [⟨"text", .string⟩], .void⟩

/-- Reads a line. -/
def input : Function := ⟨"input", [], .string⟩

/-- Draws a number below a bound. -/
def rnd : Function := ⟨"rnd", [⟨"max", .int⟩], .int⟩

/-- All functions that there are. -/
def all : List Function := [print, input, rnd]

/-- The function of a name. -/
def ofName? (name : String) : Option Function := all.find? (·.name == name)

end Function

end SnippetLang
