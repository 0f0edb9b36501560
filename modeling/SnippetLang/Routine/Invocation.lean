import SnippetLang.Console
import SnippetLang.RunError
import SnippetLang.Text.Blank

/-!
# Invoking routines

What the native routines do.  A routine takes values and a console and answers a value or an error
together with the console behind it; the console counts also when there is an error.  Arguments that
do not have the routine's number and types are an internal error, for every routine alike.
-/

namespace SnippetLang.Routine

/-- The answer of something that a console is used for. -/
abbrev Answer (α : Type) := Except RunError α × Console

/-- A letter as its small form, ASCII letters only. -/
def smallLetter (c : Char) : Char :=
  if 'A' ≤ c ∧ c ≤ 'Z' then Char.ofNat (c.toNat + 32) else c

/-- The truth value that a text denotes: its name, in small or capital letters, blanks around it. -/
def readBool? (s : String) : Option Bool :=
  let word := String.ofList ((Text.trim s.toList).map smallLetter)
  if word = "true" then some true
  else if word = "false" then some false
  else none

/-- The number that a text denotes: its decimal form, blanks around it. -/
def readInt? (s : String) : Option Int32 := Text.readInt? (Text.trim s.toList)

/-- A number from zero up to a bound, the bound itself left out unless it is zero. -/
def random (max : Int32) (console : Console) : Answer Value :=
  if max < 0 then
    (.error (.negativeBound max), console)
  else if max = 0 then
    (.ok (.int 0), console)
  else
    let (n, console) := console.draw max.toInt.toNat
    (.ok (.int (Int32.ofNat n)), console)

/-- Runs a routine. -/
def invoke (r : Routine) (args : List Value) (console : Console) : Answer Value :=
  match r, args with
  | print, [.string s] => (.ok .void, console.writeLine s)
  | input, [] =>
    match console.readLine with
    | (.text s, console) => (.ok (.string s), console)
    | (.undecodable, console) => (.error .unreadableInput, console)
  | rnd, [.int max] => random max console
  | boolToString, [.bool b] => (.ok (.string (Value.bool b).text), console)
  | intToString, [.int n] => (.ok (.string (Value.int n).text), console)
  | stringToBool, [.string s] =>
    match readBool? s with
    | some b => (.ok (.bool b), console)
    | none => (.error (.invalidConversion s .bool), console)
  | stringToInt, [.string s] =>
    match readInt? s with
    | some n => (.ok (.int n), console)
    | none => (.error (.invalidConversion s .int), console)
  | r, args => (.error (.internal (.invalidProgram (.wrongShape r args.length))), console)

end SnippetLang.Routine
