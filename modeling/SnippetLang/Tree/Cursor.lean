import SnippetLang.Issue
import SnippetLang.Tree

/-!
# Reading a sequence of tokens

A cursor stands on one token of a sequence and knows the tokens on both sides.  It can always look
at its token, and advancing from the last one stays there, so reading needs no check for the end.

`Reader` is a cursor together with the issues found so far.  Its `expect` and `ident` are the only
ways in which the parser asks for a particular token: when another one stands there, an issue is
added at it and the cursor does not move.
-/

namespace SnippetLang

/-- A place in a sequence of tokens. -/
structure Cursor where
  passed : List Token     -- the tokens before, the nearest first
  current : Token
  ahead : List Token      -- the tokens after

namespace Cursor

/-- The cursor on the first token of a sequence; an empty one counts as its end. -/
def ofTokens : List Token → Cursor
  | [] => ⟨[], ⟨.endOfFile, Span.point 0⟩, []⟩
  | t :: ts => ⟨[], t, ts⟩

/-- How many tokens were passed. -/
def position (c : Cursor) : Nat := c.passed.length

/-- The token that many places ahead, or the last one if the sequence is shorter. -/
def peek (c : Cursor) : Nat → Token
  | 0 => c.current
  | n + 1 => c.ahead.getD n (c.ahead.getLastD c.current)

/-- The span of the token before. -/
def previousSpan (c : Cursor) : Span :=
  match c.passed with
  | [] => Span.point 0
  | t :: _ => t.span

/-- Whether the token is the end of the file. -/
def atEnd (c : Cursor) : Bool := c.current.kind == .endOfFile

/-- Whether the token is of a class. -/
def check (c : Cursor) (expected : TokenClass) : Bool := c.current.kind.toClass == expected

/-- Moves on by one token, except from the last one. -/
def advance (c : Cursor) : Cursor :=
  match c.ahead with
  | [] => c
  | t :: ts => ⟨c.current :: c.passed, t, ts⟩

end Cursor

/-- A cursor and the issues found on the way to it. -/
structure Reader where
  cursor : Cursor
  issues : List Issue     -- in the order in which they were found

namespace Reader

/-- A reader at the start of a sequence of tokens. -/
def ofTokens (tokens : List Token) : Reader := ⟨Cursor.ofTokens tokens, []⟩

/-- The kind of the token that the reader is at. -/
def kind (r : Reader) : TokenKind := r.cursor.current.kind

/-- The span of the token that the reader is at. -/
def span (r : Reader) : Span := r.cursor.current.span

/-- Whether the reader is at a token of a class. -/
def check (r : Reader) (expected : TokenClass) : Bool := r.cursor.check expected

/-- Moves on by one token. -/
def advance (r : Reader) : Reader := { r with cursor := r.cursor.advance }

/-- Adds the issue that the token is not the expected one. -/
def unexpected (r : Reader) (expected : TokenClass) : Reader :=
  { r with issues := r.issues ++ [⟨.unexpectedToken r.kind.toClass expected, r.span⟩] }

/-- Reads a token of a class and answers its span, which is that of the token found if the class is
    another one. -/
def expect (r : Reader) (expected : TokenClass) : Span × Reader :=
  (r.span, if r.check expected then r.advance else r.unexpected expected)

/-- Reads a name; one that is missing stands where the token found does. -/
def ident (r : Reader) : Tree.Ident × Reader :=
  match r.kind with
  | .ident name => (⟨name, r.span⟩, r.advance)
  | _ => (⟨"", r.span⟩, r.unexpected .ident)

end Reader

end SnippetLang
