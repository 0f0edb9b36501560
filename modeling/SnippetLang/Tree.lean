import SnippetLang.Token

/-!
# Surface trees

What the parser makes of the tokens.  Nothing here is typed or resolved.  A node keeps the spans of
its own tokens only; the extent of a composite node is the merge of the spans at its two ends, and
is computed rather than stored.  Every sequence of tokens has a tree: what is missing is an `error`
expression or a name without characters.
-/

namespace SnippetLang.Tree

/-- A name at a place.  A name that is missing has no characters. -/
structure Ident where
  name : String
  span : Span
deriving DecidableEq

/-- An expression. -/
inductive Expr where
  | error (span : Span)                              -- nothing that could be read as one
  | int (span : Span) (n : Int32)
  | bool (span : Span) (b : Bool)
  | string (span : Span) (s : String)
  | name (ident : Ident)
  | assign (target : Ident) (value : Expr)
  | unary (op : UnaryOp) (opSpan : Span) (operand : Expr)
  | binary (left : Expr) (op : BinaryOp) (opSpan : Span) (right : Expr)
  | paren (opening : Span) (inner : Expr) (closing : Span)
  | call (callee : Ident) (args : List Expr) (closing : Span)

/-- From the first to the last token of an expression. -/
def Expr.span : Expr → Span
  | error span => span
  | int span _ => span
  | bool span _ => span
  | string span _ => span
  | name ident => ident.span
  | assign target value => target.span.merge value.span
  | unary _ opSpan operand => opSpan.merge operand.span
  | binary left _ _ right => left.span.merge right.span
  | paren opening _ closing => opening.merge closing
  | call callee _ closing => callee.span.merge closing

/-- A statement. -/
inductive Stmt where
  | block (opening : Span) (body : List Stmt) (closing : Span)
  | declare (keyword : Span) (readOnly : Bool) (name : Ident) (init : Expr)
  | ifThen (keyword : Span) (condition : Expr) (yes : Stmt)
  | ifElse (keyword : Span) (condition : Expr) (yes no : Stmt)
  | whileDo (keyword : Span) (condition : Expr) (body : Stmt)
  | doWhile (keyword : Span) (body : Stmt) (condition : Expr)
  | count (keyword : Span) (name : Ident) (lower upper : Expr) (body : Stmt)
  | expr (e : Expr)

/-- From the first to the last token of a statement. -/
def Stmt.span : Stmt → Span
  | block opening _ closing => opening.merge closing
  | declare keyword _ _ init => keyword.merge init.span
  | ifThen keyword _ yes => keyword.merge yes.span
  | ifElse keyword _ _ no => keyword.merge no.span
  | whileDo keyword _ body => keyword.merge body.span
  | doWhile keyword _ condition => keyword.merge condition.span
  | count keyword _ _ _ body => keyword.merge body.span
  | expr e => e.span

/-- The tree of a whole snippet. -/
structure Root where
  statements : List Stmt
  span : Span

end SnippetLang.Tree
