import SnippetLang.Token.Lexer
import SnippetLang.Tree.Cursor

/-!
# Parsing

Recursive descent over a `Reader`, with precedence climbing for binary operators.  Parsing never
fails: an issue is added where a token is missing, and reading goes on.

Every function takes a bound on the depth of its recursion.  Between two tokens that are passed
fewer than eight calls nest (the longest chain is `statements`, `statement`, `declaration`,
`expression`, `binary`, `primary`), so a bound of eight for each token is never used up;
`parseTokens` supplies it.  What a function answers when its bound is zero is therefore never seen.

An assignment is recognised by a name with `=` after it, which takes one token of lookahead.
Operators in front bind tighter than those between operands, and those group to the left.
-/

namespace SnippetLang.Parser

open SnippetLang.Tree

/-- The unary operator that a token can be. -/
def unaryOp? : TokenKind → Option UnaryOp
  | .mark m => m.unary?
  | _ => none

/-- The binary operator that a token can be. -/
def binaryOp? : TokenKind → Option BinaryOp
  | .mark m => m.binary?
  | _ => none

/-- Whether the reader is at a name with `=` after it. -/
def atAssignment (r : Reader) : Bool :=
  r.check .ident && (r.cursor.peek 1).kind == .mark .eq

/-! ### Expressions -/

mutual

/-- An assignment, or else an expression of operators. -/
def expression : Nat → Reader → Expr × Reader
  | 0, r => (.error r.span, r)
  | bound + 1, r =>
    if atAssignment r then
      let (target, r) := r.ident
      let (value, r) := expression bound r.advance
      (.assign target value, r)
    else
      binary bound 0 r

/-- An operand and the operators after it that bind tighter than the one before it. -/
def binary : Nat → Nat → Reader → Expr × Reader
  | 0, _, r => (.error r.span, r)
  | bound + 1, outer, r =>
    match unaryOp? r.kind with
    | some op =>
      let (operand, after) := binary bound UnaryOp.precedence r.advance
      climb bound outer (.unary op r.span operand) after
    | none =>
      let (operand, after) := primary bound r
      climb bound outer operand after

/-- The operators after a left operand that bind tighter than the one before it. -/
def climb : Nat → Nat → Expr → Reader → Expr × Reader
  | 0, _, left, r => (left, r)
  | bound + 1, outer, left, r =>
    match binaryOp? r.kind with
    | some op =>
      if op.precedence ≤ outer then
        (left, r)
      else
        let (right, after) := binary bound op.precedence r.advance
        climb bound outer (.binary left op r.span right) after
    | none => (left, r)

/-- A literal, a name, a call or an expression in parentheses.  A token that begins none of them
    stays unread; an invalid one is passed without another issue, since the lexer found it. -/
def primary : Nat → Reader → Expr × Reader
  | 0, r => (.error r.span, r)
  | bound + 1, r =>
    match r.kind with
    | .mark .leftParen =>
      let (inner, after) := expression bound r.advance
      let (closing, after) := after.expect (.mark .rightParen)
      (.paren r.span inner closing, after)
    | .word .trueWord => (.bool r.span true, r.advance)
    | .word .falseWord => (.bool r.span false, r.advance)
    | .int n => (.int r.span n, r.advance)
    | .string s => (.string r.span s, r.advance)
    | .ident name =>
      let ident : Ident := ⟨name, r.span⟩
      let after := r.advance
      if after.check (.mark .leftParen) then
        let (args, after) := arguments bound after.advance
        let (closing, after) := after.expect (.mark .rightParen)
        (.call ident args closing, after)
      else
        (.name ident, after)
    | kind => (.error r.span, if kind = .invalid then r.advance else r.unexpected .ident)

/-- The arguments of a call, separated by commas; a comma may follow the last one. -/
def arguments : Nat → Reader → List Expr × Reader
  | 0, r => ([], r)
  | bound + 1, r =>
    if r.cursor.atEnd || r.check (.mark .rightParen) then
      ([], r)
    else
      let (first, r) := expression bound r
      if r.check (.mark .comma) then
        let (others, r) := arguments bound r.advance
        (first :: others, r)
      else
        ([first], r)

end

/-! ### Statements -/

mutual

/-- A statement, which its first token decides on. -/
def statement : Nat → Reader → Stmt × Reader
  | 0, r => (.expr (.error r.span), r)
  | bound + 1, r =>
    match r.kind with
    | .mark .leftBrace =>
      let (body, after) := statements bound true r.advance
      let (closing, after) := after.expect (.mark .rightBrace)
      (.block r.span body closing, after)
    | .word .varWord => declaration bound false r
    | .word .letWord => declaration bound true r
    | .word .ifWord =>
      let (condition, after) := expression bound r.advance
      let (yes, after) := statement bound after
      if after.check (.word .elseWord) then
        let (no, after) := statement bound after.advance
        (.ifElse r.span condition yes no, after)
      else
        (.ifThen r.span condition yes, after)
    | .word .whileWord =>
      let (condition, after) := expression bound r.advance
      let (body, after) := statement bound after
      (.whileDo r.span condition body, after)
    | .word .doWord =>
      let (body, after) := statement bound r.advance
      let (_, after) := after.expect (.word .whileWord)
      let (condition, after) := expression bound after
      (.doWhile r.span body condition, after)
    | .word .forWord =>
      let (name, after) := r.advance.ident
      let (_, after) := after.expect (.mark .eq)
      let (lower, after) := expression bound after
      let (_, after) := after.expect (.word .toWord)
      let (upper, after) := expression bound after
      let (body, after) := statement bound after
      (.count r.span name lower upper body, after)
    | _ =>
      let (e, after) := expression bound r
      (.expr e, after)

/-- A declaration, at its keyword. -/
def declaration : Nat → Bool → Reader → Stmt × Reader
  | 0, _, r => (.expr (.error r.span), r)
  | bound + 1, readOnly, r =>
    let (name, after) := r.advance.ident
    let (_, after) := after.expect (.mark .eq)
    let (init, after) := expression bound after
    (.declare r.span readOnly name init, after)

/-- Statements up to the end of the file or, inside a block, up to a closing brace.  A statement
    that passed no token makes the reader skip one. -/
def statements : Nat → Bool → Reader → List Stmt × Reader
  | 0, _, r => ([], r)
  | bound + 1, inBlock, r =>
    if r.cursor.atEnd || (inBlock && r.check (.mark .rightBrace)) then
      ([], r)
    else
      let (first, after) := statement bound r
      let after := if after.cursor.position = r.cursor.position then after.advance else after
      let (others, after) := statements bound inBlock after
      (first :: others, after)

end

/-- Enough depth for a sequence of that many tokens. -/
def depthBound (tokens : Nat) : Nat := 8 * tokens + 8

end Parser

/-- The tree of a sequence of tokens that ends with the end of the file, and what is wrong with
    it. -/
def parseTokens (tokens : List Token) : Tree.Root × List Issue :=
  let start := Reader.ofTokens tokens
  let (statements, after) := Parser.statements (Parser.depthBound tokens.length) false start
  (⟨statements, start.span.start, after.span.stop⟩, after.issues)

/-- A source with its tree. -/
structure Parsed where
  source : String
  root : Tree.Root
  lexical : List Issue      -- found by the lexer
  syntactic : List Issue    -- found by the parser

/-- The tree of a source. -/
def parse (source : String) : Parsed :=
  let (tokens, lexical) := lex source
  let (root, syntactic) := parseTokens tokens
  ⟨source, root, lexical, syntactic⟩

namespace Parsed

/-- What is wrong with the source, the lexer's findings first. -/
def issues (p : Parsed) : List Issue := p.lexical ++ p.syntactic

end Parsed

end SnippetLang
