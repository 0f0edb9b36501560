import SnippetLang.Value

/-!
# The console

What a run writes and reads.  Output is one growing text.  Input is a list of lines that is used up
from the front and followed by endlessly many empty lines.  Random numbers come from an unending
sequence of draws, fixed before the run: a run is then a function of the console that it starts
with, and two runs that start alike draw alike.
-/

namespace SnippetLang

/-- A line of input. -/
inductive InputLine where
  | text (s : String)
  | undecodable         -- bytes that are not UTF-8
deriving DecidableEq

/-- The surroundings of a run. -/
structure Console where
  output : String
  input : List InputLine
  draws : Nat → Nat       -- the sequence of random numbers
  drawn : Nat             -- how many of them were used

namespace Console

/-- A console with nothing written, some lines to read, and a sequence of draws. -/
def start (input : List InputLine) (draws : Nat → Nat) : Console := ⟨"", input, draws, 0⟩

/-- Writes a text and a line feed. -/
def writeLine (c : Console) (s : String) : Console := { c with output := c.output ++ s ++ "\n" }

/-- Reads a line. -/
def readLine (c : Console) : InputLine × Console :=
  match c.input with
  | [] => (.text "", c)
  | line :: rest => (line, { c with input := rest })

/-- Draws a number below a bound. -/
def draw (c : Console) (bound : Nat) : Nat × Console :=
  (c.draws c.drawn % bound, { c with drawn := c.drawn + 1 })

/-- Adds a line behind those still to be read. -/
def pushInput (c : Console) (line : InputLine) : Console := { c with input := c.input ++ [line] }

/-- What was written so far, and the console without it. -/
def takeOutput (c : Console) : String × Console := (c.output, { c with output := "" })

end Console

/-! ### Draws -/

/-- Stirs the bits of a word, so that neighbouring words come out unlike each other. -/
def stir (word : UInt64) : UInt64 :=
  let word := (word ^^^ (word >>> 30)) * 0xbf58476d1ce4e5b9
  let word := (word ^^^ (word >>> 27)) * 0x94d049bb133111eb
  word ^^^ (word >>> 31)

/-- The sequence of draws that grows from a seed. -/
def drawsFrom (seed : UInt64) (index : Nat) : Nat :=
  (stir (seed + (UInt64.ofNat index + 1) * 0x9e3779b97f4a7c15)).toNat

/-! ### Lines of a byte stream -/

namespace InputLine

/-- Splits bytes after each line feed; the last line may have none. -/
def splitLines : List UInt8 → List UInt8 → List (List UInt8)
  | [], [] => []
  | line, [] => [line.reverse]
  | line, b :: rest =>
    if b = 10 then (b :: line).reverse :: splitLines [] rest else splitLines (b :: line) rest

/-- A line of a byte stream, without the line feeds and carriage returns at its end. -/
def ofBytes (line : List UInt8) : InputLine :=
  match String.fromUTF8? ⟨line.toArray⟩ with
  | some s =>
    text (String.ofList (s.toList.reverse.dropWhile fun c => c == '\n' || c == '\r').reverse)
  | none => undecodable

/-- The lines of a byte stream. -/
def ofStream (bytes : List UInt8) : List InputLine := (splitLines [] bytes).map ofBytes

end InputLine

end SnippetLang
