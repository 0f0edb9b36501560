import SnippetLang.Issue
import SnippetLang.Text.Decimal
import SnippetLang.Token.Escape

/-!
# Lexing

A source is cut into pieces from left to right, each piece the longest that any rule allows:
layout, a comment, a number, a word, a string, a mark, or else a single character that begins
nothing.  `next` cuts one piece off the front and never returns an empty one, so `scan` ends; layout
and comments leave no token behind, and every other piece leaves one.

Malformed input never stops the lexer.  It becomes a token with an issue beside it, so that the
parser always reads a complete sequence with one end-of-file token at its end.
-/

namespace SnippetLang.Lexer

/-! ### Classes of characters -/

/-- Whether a character is layout between tokens. -/
def isLayout (c : Char) : Bool := c == ' ' || c == '\t' || c == '\r' || c == '\n'

/-- Whether a word can begin with this character. -/
def isWordStart (c : Char) : Bool :=
  ('a' ≤ c && c ≤ 'z') || ('A' ≤ c && c ≤ 'Z') || c == '_'

/-- Whether a word can go on with this character. -/
def isWordPart (c : Char) : Bool := isWordStart c || Text.isDigit c

/-! ### Marks and strings -/

/-- The longest mark at the front, and what is left after it. -/
def mark? : List Char → Option (Mark × List Char)
  | '=' :: '=' :: rest => some (.eqEq, rest)
  | '=' :: rest => some (.eq, rest)
  | '!' :: '=' :: rest => some (.notEq, rest)
  | '!' :: rest => some (.bang, rest)
  | '<' :: '=' :: rest => some (.ltEq, rest)
  | '<' :: rest => some (.lt, rest)
  | '>' :: '=' :: rest => some (.gtEq, rest)
  | '>' :: rest => some (.gt, rest)
  | '&' :: '&' :: rest => some (.ampAmp, rest)
  | '&' :: rest => some (.amp, rest)
  | '|' :: '|' :: rest => some (.pipePipe, rest)
  | '|' :: rest => some (.pipe, rest)
  | '+' :: rest => some (.plus, rest)
  | '-' :: rest => some (.minus, rest)
  | '*' :: rest => some (.star, rest)
  | '/' :: rest => some (.slash, rest)
  | '~' :: rest => some (.tilde, rest)
  | '^' :: rest => some (.caret, rest)
  | '(' :: rest => some (.leftParen, rest)
  | ')' :: rest => some (.rightParen, rest)
  | '\x7b' :: rest => some (.leftBrace, rest)
  | '\x7d' :: rest => some (.rightBrace, rest)
  | ',' :: rest => some (.comma, rest)
  | _ => none

/-- Whether a character can stand in a string for itself. -/
def isPlain (c : Char) : Bool := c != '"' && c != '\\' && c != '\n' && c != '\r'

/-- Splits off the inside of a string: plain characters, and pairs of a backslash and any
    character but a line feed. -/
def spanString : List Char → List Char × List Char
  | [] => ([], [])
  | [c] => if isPlain c then ([c], []) else ([], [c])
  | c :: d :: rest =>
    if isPlain c then
      let (inside, after) := spanString (d :: rest)
      (c :: inside, after)
    else if c = '\\' ∧ d ≠ '\n' then
      let (inside, after) := spanString rest
      (c :: d :: inside, after)
    else
      ([], c :: d :: rest)

/-! ### One piece -/

/-- A piece cut off the front of the input. -/
structure Piece where
  text : List Char           -- the characters of the piece
  kind : Option TokenKind    -- the token it leaves, if any
  cause : Option Cause       -- what is wrong with it, if anything
  rest : List Char           -- the input after it

/-- A number; one that does not fit counts as zero. -/
def number (digits rest : List Char) : Piece :=
  let value := Text.digitsValue digits
  { text := digits
    kind := some (.int (if value ≤ Text.maxInt then Int32.ofNat value else 0))
    cause := if value ≤ Text.maxInt then none else some (.numberOutOfRange (String.ofList digits))
    rest := rest }

/-- What a word is: reserved, or else a name. -/
def wordKind (name : String) : TokenKind :=
  match Keyword.ofSpelling? name with
  | some w => .word w
  | none => .ident name

/-- A string whose opening quote was read. -/
def string (cs : List Char) : Piece :=
  let inside := (spanString cs).1
  let kind := TokenKind.string (String.ofList (Escape.decode inside))
  match (spanString cs).2 with
  | '"' :: rest => ⟨'"' :: inside ++ ['"'], some kind, none, rest⟩
  | rest => ⟨'"' :: inside, some kind, some .unterminatedString, rest⟩

/-- The piece at the front of the input `c :: cs`. -/
def next (c : Char) (cs : List Char) : Piece :=
  if isLayout c then
    ⟨c :: cs.takeWhile isLayout, none, none, cs.dropWhile isLayout⟩
  else if c = '/' ∧ cs.head? = some '/' then
    ⟨c :: cs.takeWhile (· != '\n'), none, none, cs.dropWhile (· != '\n')⟩
  else if Text.isDigit c then
    number (c :: cs.takeWhile Text.isDigit) (cs.dropWhile Text.isDigit)
  else if isWordStart c then
    let name := c :: cs.takeWhile isWordPart
    ⟨name, some (wordKind (String.ofList name)), none, cs.dropWhile isWordPart⟩
  else if c = '"' then
    string cs
  else
    match mark? (c :: cs) with
    | some (m, rest) => ⟨m.spelling.toList, some (.mark m), none, rest⟩
    | none => ⟨[c], some .invalid, some (.badCharacter (String.ofList [c])), cs⟩

/-! ### Nothing is lost and every piece takes something -/

theorem spanString_append (cs : List Char) : (spanString cs).1 ++ (spanString cs).2 = cs := by
  fun_induction spanString cs <;> simp_all

theorem spelling_append_of_mark? {cs : List Char} {m : Mark} {rest : List Char}
    (h : mark? cs = some (m, rest)) : m.spelling.toList ++ rest = cs := by
  revert h
  unfold mark?
  split <;> intro h <;> simp_all only [Option.some.injEq, Prod.mk.injEq, reduceCtorEq] <;>
    obtain ⟨rfl, rfl⟩ := h <;> rfl

theorem text_append_rest_string (cs : List Char) :
    (string cs).text ++ (string cs).rest = '"' :: cs := by
  have h := spanString_append cs
  unfold string
  split <;> simp_all

/-- The piece and the input after it make up the input. -/
theorem text_append_rest (c : Char) (cs : List Char) :
    (next c cs).text ++ (next c cs).rest = c :: cs := by
  unfold next
  split
  · simp
  split
  · simp
  split
  · simp [number]
  split
  · simp
  split
  · simp_all [text_append_rest_string]
  split
  · next h => exact spelling_append_of_mark? h
  · rfl

theorem text_ne_nil (c : Char) (cs : List Char) : (next c cs).text ≠ [] := by
  unfold next
  split
  · simp
  split
  · simp
  split
  · simp [number]
  split
  · simp
  split
  · unfold string
    split <;> simp
  split
  · next m rest h => cases m <;> simp [Mark.spelling]
  · simp

theorem length_rest_lt (c : Char) (cs : List Char) :
    (next c cs).rest.length < (c :: cs).length := by
  have h := congrArg List.length (text_append_rest c cs)
  have := List.length_pos_iff.2 (text_ne_nil c cs)
  simp only [List.length_append] at h
  omega

/-! ### The whole source -/

/-- The tokens and issues of an input that begins at `offset`, with the end-of-file token. -/
def scan (offset : Nat) : List Char → List Token × List Issue
  | [] => ([⟨.endOfFile, Span.point offset⟩], [])
  | c :: cs =>
    let piece := next c cs
    let span : Span := ⟨offset, offset + utf8Length piece.text⟩
    let (tokens, issues) := scan span.stop piece.rest
    (match piece.kind with
      | some kind => ⟨kind, span⟩ :: tokens
      | none => tokens,
     match piece.cause with
      | some cause => ⟨cause, span⟩ :: issues
      | none => issues)
termination_by cs => cs.length
decreasing_by exact length_rest_lt c cs

end Lexer

/-- The tokens of a source, the last one `endOfFile`, and what is wrong with them. -/
def lex (source : String) : List Token × List Issue := Lexer.scan 0 source.toList

end SnippetLang
