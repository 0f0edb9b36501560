import SnippetLang.CommandLine

/-!
# The program

Connects the command line with the world.  A run is taken step by step: what it wrote is shown after
each step, and lines of input are read only when the next step may ask for them, so that a dialogue
with the program works and a program that runs for ever shows what it writes.
-/

namespace SnippetLang.Main

open CommandLine

/-- Reads the bytes of a line, its line feed included; none at the end of the input. -/
partial def readBytes (input : IO.FS.Stream) (line : List UInt8) : IO (List UInt8) := do
  match (← input.read 1).toList with
  | b :: _ => if b = 10 then pure (b :: line).reverse else readBytes input (b :: line)
  | [] => pure line.reverse

/-- Reads lines until that many are there for the console, or the input ends. -/
partial def refill (input : IO.FS.Stream) (wanted : Nat) (console : Console) : IO Console := do
  if wanted ≤ console.input.length then
    pure console
  else
    match ← readBytes input [] with
    | [] => pure console
    | line => refill input wanted (console.pushInput (.ofBytes line))

/-- Shows a text at once. -/
def display (output : IO.FS.Stream) (s : String) : IO Unit :=
  if s.isEmpty then pure () else do
    output.putStr s
    output.flush

/-- Answers on the standard streams. -/
def answer (r : Response) : IO UInt32 := do
  display (← IO.getStdout) r.output
  display (← IO.getStderr) r.errors
  pure r.status

/-- Takes a run to its end. -/
partial def drive (path : String) (run : Execution) : IO UInt32 := do
  let (written, console) := run.console.takeOutput
  display (← IO.getStdout) written
  let console ← refill (← IO.getStdin) run.linesWanted console
  match (run.withConsole console).step with
  | .running run => drive path run
  | .finished outcome => answer (ofOutcome path outcome)

/-- Reads a file. -/
def readFile (path : String) : IO FileText := do
  try
    pure (.ofBytes (← IO.FS.readBinFile path))
  catch e =>
    match e with
    | .noFileOrDirectory .. => pure .missing
    | .permissionDenied .. => pure .denied
    | e => pure (.failed e.toString)

/-- Answers the arguments of the program. -/
def answerArgs (args : List String) : IO UInt32 := do
  let request := Request.ofArgs args
  let file ← match request.path? with
    | some path => readFile path
    | none => pure .missing
  let seed ← IO.rand 0 18446744073709551615
  let console := Console.start [] (drawsFrom (UInt64.ofNat seed))
  match react request file console with
  | .respond r => answer r
  | .execute path run => drive path run

end SnippetLang.Main

/-- The program. -/
def main (args : List String) : IO UInt32 := SnippetLang.Main.answerArgs args
