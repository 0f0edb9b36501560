import SnippetLang.Token.Escape
import SnippetLang.Typed

/-!
# Printing typed trees

The text form of expressions and statements.  An expression is written so that it reads back as
itself: operators between operands always have parentheses around them, and a literal text is
quoted with the escapes that the lexer knows.  A statement takes a line for each of its parts; what
is inside a block stands four blanks further right, and a label one step further left.
-/

namespace SnippetLang.Typed

/-! ### Expressions -/

/-- A literal as a program would write it. -/
def literalText : Value → String
  | .string s => String.ofList (Escape.quote s.toList)
  | v => v.text

mutual

/-- An expression on one line. -/
def Expr.text : Expr → String
  | .error => "?"
  | .literal v => literalText v
  | .read x => x.name
  | .assign x value => x.name ++ " = " ++ value.text
  | .unary op operand => op.op.spelling ++ operand.text
  | .binary left op right => "(" ++ left.text ++ " " ++ op.op.spelling ++ " " ++ right.text ++ ")"
  | .call f args => f.name ++ "(" ++ Expr.textAll args ++ ")"
  | .convert target e => target.name ++ "(" ++ e.text ++ ")"

/-- Expressions on one line, separated by commas. -/
def Expr.textAll : List Expr → String
  | [] => ""
  | [e] => e.text
  | e :: es => e.text ++ ", " ++ Expr.textAll es

end

/-! ### Statements -/

/-- A line at a depth of nesting. -/
def indent (depth : Nat) (line : String) : String :=
  String.ofList (List.replicate (4 * depth) ' ') ++ line

/-- The depth of a statement that is part of another one at `depth`: a block stays there, anything
    else goes one step further right. -/
def innerDepth (depth : Nat) (s : Stmt) : Nat := if s.isBlock then depth else depth + 1

mutual

/-- The lines of a statement at a depth of nesting. -/
def Stmt.lines (depth : Nat) : Stmt → List String
  | .block body =>
    indent depth "\x7b" :: Stmt.linesAll (depth + 1) body ++ [indent depth "\x7d"]
  | .declare x init =>
    [indent depth ((if x.readOnly then "let " else "var ") ++ x.name ++ " = " ++ init.text)]
  | .expr e => [indent depth e.text]
  | .ifThen condition yes =>
    indent depth ("if " ++ condition.text) :: yes.lines (innerDepth depth yes)
  | .ifElse condition yes no =>
    indent depth ("if " ++ condition.text) :: yes.lines (innerDepth depth yes) ++
      indent depth "else" :: no.lines (innerDepth depth no)
  | .whileDo condition body =>
    indent depth ("while " ++ condition.text) :: body.lines (innerDepth depth body)
  | .doWhile body condition =>
    indent depth "do" :: body.lines (innerDepth depth body) ++
      [indent depth ("while " ++ condition.text)]
  | .count x lower upper body =>
    indent depth ("for " ++ x.name ++ " = " ++ lower.text ++ " to " ++ upper.text) ::
      body.lines (innerDepth depth body)
  | .goto l => [indent depth ("goto " ++ l.name)]
  | .gotoIf l condition jumpIf =>
    [indent depth
      ("goto " ++ l.name ++ (if jumpIf then " if " else " unless ") ++ condition.text)]
  | .label l => [indent (depth - 1) (l.name ++ ":")]
  | .result ty => [indent depth ("<result> = " ++ ty.name)]

/-- The lines of statements one after the other. -/
def Stmt.linesAll (depth : Nat) : List Stmt → List String
  | [] => []
  | s :: rest => s.lines depth ++ Stmt.linesAll depth rest

end

/-- A statement as text, with a line feed after each line. -/
def Stmt.text (s : Stmt) : String := String.join ((s.lines 0).map (· ++ "\n"))

end SnippetLang.Typed
