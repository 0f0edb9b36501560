import SnippetLang.Code.Cell
import SnippetLang.Code.Instr
import SnippetLang.Code.Phase
import SnippetLang.Typed

/-!
# What can go wrong in a run

A `RunError` ends a run.  Most of them a program can cause: it divides by zero, converts a text
that has no such value, or asks for a random number below a negative bound.  The rest are
`InternalError`s, which a program that elaborated without issues never meets: they say that a tree
or a method given to an evaluator does not have the form that it relies on.
-/

namespace SnippetLang

/-! ### Malformed trees and methods -/

/-- A way in which a method, or the construction of one, is malformed. -/
inductive Flaw where
  | phaseOrder (current requested : Code.Phase)
  | noSlot (name : String)
  | notABranch (i : Code.Instr)
  | tooManyVariables
  | ranPast (index : Nat)
  | stackUnderflow
  | notAnInt (found : Code.Cell)
  | notAString (found : Code.Cell)
  | notTheArguments (found : Code.Cell)
  | notOfType (found : Code.Cell) (ty : Ty)
  | storeOf (found : Code.Cell)
  | unboxOf (found : Code.Cell)
  | returnOf (found : Code.Cell)
  | negativeIndex (n : Int32)
  | noArgument (index : Nat)
  | noLocal (slot : Nat)
  | wrongShape (routine : Routine) (arguments : Nat)
deriving DecidableEq

/-- The flaw in words. -/
def Flaw.message : Flaw → String
  | phaseOrder current requested =>
    s!"method frame cannot go back from {current.name} to {requested.name}"
  | noSlot name => s!"variable `{name}` has no slot"
  | notABranch i => s!"`{i.text}` is not a branch"
  | tooManyVariables => "too many variables"
  | ranPast index => s!"execution ran past {Code.offsetName index}"
  | stackUnderflow => "evaluation stack underflow"
  | notAnInt found => s!"expected int32 on the stack, found {found.describe}"
  | notAString found => s!"expected string on the stack, found {found.describe}"
  | notTheArguments found => s!"expected the argument array, found {found.describe}"
  | notOfType found ty => s!"cannot treat {found.describe} as {ty.name}"
  | storeOf found => s!"stelem.ref of {found.describe}"
  | unboxOf found => s!"unbox.any of {found.describe}"
  | returnOf found => s!"ret of unboxed {found.describe}"
  | negativeIndex n => s!"negative array index {String.ofList (Text.writeInt n)}"
  | noArgument index => s!"argument index {index} out of range"
  | noLocal slot => s!"local slot {slot} out of range"
  | wrongShape routine arguments =>
    s!"`{routine.name}` called with {arguments} argument(s) of the wrong shape"

/-- Who met a node that should not have reached it. -/
inductive Consumer where
  | evaluator
  | emitter
deriving DecidableEq

/-- The consumer in words. -/
def Consumer.name : Consumer → String
  | evaluator => "tree-walking evaluator"
  | emitter => "emitter"

/-- An error that is not the program's. -/
inductive InternalError where
  | unexpectedNode (consumer : Consumer) (kind : String)
  | unknownRoutine (name : String)
  | unmarkedLabel (l : JumpLabel)
  | operandType (expected found : Ty)
  | invalidProgram (flaw : Flaw)
deriving DecidableEq

/-- The error in words. -/
def InternalError.message : InternalError → String
  | unexpectedNode consumer kind => s!"unexpected {kind} reached the {consumer.name}"
  | unknownRoutine name => s!"no built-in routine named `{name}`"
  | unmarkedLabel l => s!"jump to {l.name}, which is never marked"
  | operandType expected found =>
    s!"operand of type {found.name} where {expected.name} was expected"
  | invalidProgram flaw => s!"invalid compiled program: {flaw.message}"

/-! ### Errors of a run -/

/-- What ended a run. -/
inductive RunError where
  | divisionByZero
  | invalidConversion (text : String) (target : Ty)
  | invalidCast (name : String) (expected found : Ty)
  | negativeBound (n : Int32)
  | unreadableInput                                        -- a line that is not UTF-8
  | internal (e : InternalError)
deriving DecidableEq

/-- The error in words. -/
def RunError.message : RunError → String
  | divisionByZero => "division by zero"
  | invalidConversion text target => s!"cannot convert \"{text}\" to {target.name}"
  | invalidCast name expected found =>
    s!"variable `{name}` holds a {found.name} value but is declared {expected.name}"
  | negativeBound n => s!"rnd bound must not be negative, got {String.ofList (Text.writeInt n)}"
  | unreadableInput => "console I/O failed: stream did not contain valid UTF-8"
  | internal e => e.message

/-! ### Routines by name -/

/-- The routine of a function. -/
def Routine.ofFunction (f : Function) : Except InternalError Routine :=
  match ofName? (functionName f) with
  | some r => .ok r
  | none => .error (.unknownRoutine (functionName f))

/-- The routine of a conversion. -/
def Routine.ofConversion (source target : Ty) : Except InternalError Routine :=
  match ofName? (conversionName source target) with
  | some r => .ok r
  | none => .error (.unknownRoutine (conversionName source target))

end SnippetLang
