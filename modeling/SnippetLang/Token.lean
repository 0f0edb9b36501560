import SnippetLang.Operator
import SnippetLang.Source.Span

/-!
# Tokens

What the lexer makes of a source and the parser reads.  A token has a kind, which holds the payload
of literals and names, and the span it was read from.  `TokenClass` is the kind without payload:
the parser asks for a class and diagnostics name one.
-/

namespace SnippetLang

/-- A reserved word. -/
inductive Keyword where
  | trueWord
  | falseWord
  | varWord
  | letWord
  | ifWord
  | elseWord
  | whileWord
  | doWord
  | forWord
  | toWord
deriving DecidableEq

namespace Keyword

/-- How the word is written. -/
def spelling : Keyword → String
  | trueWord => "true"
  | falseWord => "false"
  | varWord => "var"
  | letWord => "let"
  | ifWord => "if"
  | elseWord => "else"
  | whileWord => "while"
  | doWord => "do"
  | forWord => "for"
  | toWord => "to"

/-- All reserved words. -/
def all : List Keyword :=
  [trueWord, falseWord, varWord, letWord, ifWord, elseWord, whileWord, doWord, forWord, toWord]

/-- The reserved word that a text is. -/
def ofSpelling? (text : String) : Option Keyword := all.find? (·.spelling == text)

end Keyword

/-- A punctuation mark: an operator or a delimiter. -/
inductive Mark where
  | plus
  | minus
  | star
  | slash
  | bang
  | tilde
  | amp
  | ampAmp
  | pipe
  | pipePipe
  | caret
  | eqEq
  | notEq
  | lt
  | ltEq
  | gt
  | gtEq
  | eq
  | leftParen
  | rightParen
  | leftBrace
  | rightBrace
  | comma
deriving DecidableEq

namespace Mark

/-- How the mark is written. -/
def spelling : Mark → String
  | plus => "+"
  | minus => "-"
  | star => "*"
  | slash => "/"
  | bang => "!"
  | tilde => "~"
  | amp => "&"
  | ampAmp => "&&"
  | pipe => "|"
  | pipePipe => "||"
  | caret => "^"
  | eqEq => "=="
  | notEq => "!="
  | lt => "<"
  | ltEq => "<="
  | gt => ">"
  | gtEq => ">="
  | eq => "="
  | leftParen => "("
  | rightParen => ")"
  | leftBrace => "\x7b"
  | rightBrace => "\x7d"
  | comma => ","

/-- All marks. -/
def all : List Mark :=
  [plus, minus, star, slash, bang, tilde, amp, ampAmp, pipe, pipePipe, caret, eqEq, notEq, lt, ltEq,
   gt, gtEq, eq, leftParen, rightParen, leftBrace, rightBrace, comma]

/-- The unary operator that a mark can be. -/
def unary? : Mark → Option UnaryOp
  | plus => some .plus
  | minus => some .minus
  | bang => some .bang
  | tilde => some .tilde
  | _ => none

/-- The binary operator that a mark can be. -/
def binary? : Mark → Option BinaryOp
  | plus => some .plus
  | minus => some .minus
  | star => some .star
  | slash => some .slash
  | amp => some .amp
  | ampAmp => some .ampAmp
  | pipe => some .pipe
  | pipePipe => some .pipePipe
  | caret => some .caret
  | eqEq => some .eqEq
  | notEq => some .notEq
  | lt => some .lt
  | ltEq => some .ltEq
  | gt => some .gt
  | gtEq => some .gtEq
  | _ => none

end Mark

/-- A kind of token, its payload left out. -/
inductive TokenClass where
  | int
  | string
  | ident
  | word (w : Keyword)
  | mark (m : Mark)
  | invalid             -- a character that begins no token
  | endOfFile
deriving DecidableEq

namespace TokenClass

/-- The class as diagnostics name it. -/
def describe : TokenClass → String
  | int => "integer literal"
  | string => "string literal"
  | ident => "identifier"
  | word w => "`" ++ w.spelling ++ "`"
  | mark m => "`" ++ m.spelling ++ "`"
  | invalid => "invalid token"
  | endOfFile => "end of file"

/-- All classes. -/
def all : List TokenClass :=
  [int, string, ident, invalid, endOfFile] ++ Keyword.all.map word ++ Mark.all.map mark

end TokenClass

/-- A kind of token with its payload. -/
inductive TokenKind where
  | int (n : Int32)
  | string (s : String)    -- the text that the literal denotes
  | ident (name : String)
  | word (w : Keyword)
  | mark (m : Mark)
  | invalid
  | endOfFile
deriving DecidableEq

/-- The class of a kind. -/
def TokenKind.toClass : TokenKind → TokenClass
  | int _ => .int
  | string _ => .string
  | ident _ => .ident
  | word w => .word w
  | mark m => .mark m
  | invalid => .invalid
  | endOfFile => .endOfFile

/-- A token of a source. -/
structure Token where
  kind : TokenKind
  span : Span
deriving DecidableEq

end SnippetLang
