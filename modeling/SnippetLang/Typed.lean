import SnippetLang.Function
import SnippetLang.Operator
import SnippetLang.Variable

/-!
# Typed trees

What elaboration makes of a surface tree, and what everything after it works on.  Names are
resolved to variables and functions, operators to rows of their tables, and every expression has a
type that is read off its outermost node.

One type of statement serves all stages.  Structured statements occur up to lowering, jumps and
labels after it, and `result` only in programs whose results were marked for compilation; the
consumers of a later form report a statement of an earlier one by its `kindName`.
-/

namespace SnippetLang

/-- A place that jumps can aim at. -/
structure JumpLabel where
  id : Nat         -- below 2^32
deriving DecidableEq

/-- The label as programs are printed with it. -/
def JumpLabel.name (l : JumpLabel) : String := s!"Label{l.id}"

namespace Typed

/-! ### Expressions -/

/-- A typed expression. -/
inductive Expr where
  | error                                             -- an issue was reported for it
  | literal (v : Value)
  | read (x : Variable)
  | assign (x : Variable) (value : Expr)
  | unary (op : UnaryOperator) (operand : Expr)
  | binary (left : Expr) (op : BinaryOperator) (right : Expr)
  | call (f : Function) (args : List Expr)
  | convert (target : Ty) (e : Expr)

namespace Expr

/-- The static type. -/
def ty : Expr → Ty
  | error => .error
  | literal v => v.ty
  | read x => x.ty
  | assign _ value => value.ty
  | unary op _ => op.result
  | binary _ op _ => op.result
  | call f _ => f.ty
  | convert target _ => target

/-- What an expression is called in the report of a misplaced one. -/
def kindName : Expr → String
  | error => "error expression"
  | literal _ => "literal expression"
  | read _ => "variable expression"
  | assign _ _ => "assignment expression"
  | unary _ _ => "unary expression"
  | binary _ _ _ => "binary expression"
  | call _ _ => "call expression"
  | convert _ _ => "conversion expression"

end Expr

/-! ### Statements -/

/-- A typed statement. -/
inductive Stmt where
  | block (body : List Stmt)
  | declare (x : Variable) (init : Expr)
  | expr (e : Expr)
  -- structured statements
  | ifThen (condition : Expr) (yes : Stmt)
  | ifElse (condition : Expr) (yes no : Stmt)
  | whileDo (condition : Expr) (body : Stmt)
  | doWhile (body : Stmt) (condition : Expr)
  | count (x : Variable) (lower upper : Expr) (body : Stmt)
  -- jumps
  | goto (l : JumpLabel)
  | gotoIf (l : JumpLabel) (condition : Expr) (jumpIf : Bool)  -- when the condition is `jumpIf`
  | label (l : JumpLabel)
  -- results
  | result (ty : Ty)                                  -- the value just computed is the result

namespace Stmt

/-- What a statement is called in the report of a misplaced one. -/
def kindName : Stmt → String
  | block _ => "block statement"
  | declare _ _ => "variable declaration"
  | expr _ => "expression statement"
  | ifThen _ _ => "if statement"
  | ifElse _ _ _ => "if statement"
  | whileDo _ _ => "while statement"
  | doWhile _ _ => "do-while statement"
  | count _ _ _ _ => "for statement"
  | goto _ => "goto statement"
  | gotoIf _ _ _ => "conditional goto statement"
  | label _ => "label statement"
  | result _ => "assign-result statement"

/-- Whether a statement is a block. -/
def isBlock : Stmt → Bool
  | block _ => true
  | _ => false

end Stmt

end Typed

end SnippetLang
