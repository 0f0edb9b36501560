import SnippetLang.Code.Instr
import SnippetLang.Variable

/-!
# Methods

A finished compiled method: its instructions, and the variables that it works on.  The variables
come in as an array of arguments, in their order, and each has a local slot; slot 0 holds the boxed
result, so the variable at index `i` of the array has slot `i + 1`.
-/

namespace SnippetLang.Code

/-- The slot of the result. -/
def resultSlot : Nat := 0

/-- A compiled method. -/
structure Method where
  instructions : List Instr
  vars : List Variable
deriving DecidableEq

/-- What a local slot holds. -/
inductive LocalType where
  | object           -- the boxed result
  | typed (ty : Ty)
deriving DecidableEq

/-- The type of a local slot in listings. -/
def LocalType.text : LocalType → String
  | object => "object"
  | typed ty => tyName ty

/-- The greatest stack height of instructions executed in a straight line from a height; a height
    never falls below zero. -/
def maxHeight (height : Nat) : List Instr → Nat
  | [] => height
  | i :: rest => max height (maxHeight (height - i.effect.1 + i.effect.2) rest)

namespace Method

/-- The types of the local slots, in order. -/
def locals (m : Method) : List LocalType := .object :: m.vars.map fun x => .typed x.ty

/-- The stack height that the method declares. -/
def maxStack (m : Method) : Nat := maxHeight 0 m.instructions

/-- Lines with their numbers in front. -/
def numbered (line : Nat → String → String) (first : Nat) : List String → List String
  | [] => []
  | s :: rest => line first s :: numbered line (first + 1) rest

/-- The lines of the listing. -/
def lines (m : Method) : List String :=
  [".method static object host(object[] variables)", s!".maxstack {m.maxStack}", ".locals ("] ++
    numbered (fun slot s => s!"    [{slot}] {s}") 0 (m.locals.map LocalType.text) ++
    [")", ""] ++
    numbered (fun index s => offsetName index ++ ": " ++ s) 0 (m.instructions.map Instr.text)

/-- The listing of the method. -/
def text (m : Method) : String := String.join (m.lines.map (· ++ "\n"))

end Method

end SnippetLang.Code
