import SnippetLang.Ty

/-!
# Operators

Operators come in two forms.  `UnaryOp` and `BinaryOp` are the ones that are written: a spelling
and, for binary ones, a precedence.  A written operator can mean several things, and the types of
its operands tell which; `UnaryOperator` and `BinaryOperator` are the rows of the two tables that
say so.  After a row was chosen, the spelling is only kept for printing.
-/

namespace SnippetLang

/-! ### Written operators -/

/-- An operator written in front of its operand. -/
inductive UnaryOp where
  | plus
  | minus
  | bang
  | tilde
deriving DecidableEq

namespace UnaryOp

/-- How the operator is written. -/
def spelling : UnaryOp → String
  | plus => "+"
  | minus => "-"
  | bang => "!"
  | tilde => "~"

/-- All unary operators. -/
def all : List UnaryOp := [plus, minus, bang, tilde]

/-- A unary operator binds tighter than every binary one. -/
def precedence : Nat := 6

end UnaryOp

/-- An operator written between its operands. -/
inductive BinaryOp where
  | plus
  | minus
  | star
  | slash
  | amp
  | ampAmp
  | pipe
  | pipePipe
  | caret
  | eqEq
  | notEq
  | lt
  | ltEq
  | gt
  | gtEq
deriving DecidableEq

namespace BinaryOp

/-- How the operator is written. -/
def spelling : BinaryOp → String
  | plus => "+"
  | minus => "-"
  | star => "*"
  | slash => "/"
  | amp => "&"
  | ampAmp => "&&"
  | pipe => "|"
  | pipePipe => "||"
  | caret => "^"
  | eqEq => "=="
  | notEq => "!="
  | lt => "<"
  | ltEq => "<="
  | gt => ">"
  | gtEq => ">="

/-- All binary operators. -/
def all : List BinaryOp :=
  [plus, minus, star, slash, amp, ampAmp, pipe, pipePipe, caret, eqEq, notEq, lt, ltEq, gt, gtEq]

/-- How tightly the operator binds; all of them group to the left. -/
def precedence : BinaryOp → Nat
  | star | slash => 5
  | plus | minus => 4
  | eqEq | notEq | lt | ltEq | gt | gtEq => 3
  | amp | ampAmp => 2
  | pipe | pipePipe | caret => 1

theorem precedence_pos (op : BinaryOp) : 0 < op.precedence := by
  cases op <;> decide

theorem precedence_lt_unary (op : BinaryOp) : op.precedence < UnaryOp.precedence := by
  cases op <;> decide

end BinaryOp

/-! ### What they mean -/

/-- The meaning of a unary operator. -/
inductive UnaryKind where
  | identity
  | negation
  | logicalNegation
  | onesComplement
deriving DecidableEq

/-- A unary operator with its meaning and its types. -/
structure UnaryOperator where
  op : UnaryOp
  kind : UnaryKind
  operand : Ty
  result : Ty
deriving DecidableEq

/-- Every unary operator that is defined. -/
def UnaryOperator.table : List UnaryOperator :=
  [⟨.bang, .logicalNegation, .bool, .bool⟩,
   ⟨.plus, .identity, .int, .int⟩,
   ⟨.minus, .negation, .int, .int⟩,
   ⟨.tilde, .onesComplement, .int, .int⟩]

/-- What a unary operator means for an operand of this type, if it is defined there. -/
def UnaryOperator.resolve? (op : UnaryOp) (operand : Ty) : Option UnaryOperator :=
  table.find? fun row => row.op == op && row.operand == operand

/-- The meaning of a binary operator. -/
inductive BinaryKind where
  | addition
  | subtraction
  | multiplication
  | division
  | concatenation
  | logicalAnd
  | logicalOr
  | bitwiseAnd
  | bitwiseOr
  | bitwiseXor
  | equals
  | notEquals
  | less
  | lessOrEquals
  | greater
  | greaterOrEquals
deriving DecidableEq

/-- A binary operator with its meaning and its types. -/
structure BinaryOperator where
  op : BinaryOp
  kind : BinaryKind
  left : Ty
  right : Ty
  result : Ty
deriving DecidableEq

namespace BinaryOperator

/-- A row whose operands have one type. -/
def row (op : BinaryOp) (kind : BinaryKind) (operand result : Ty) : BinaryOperator :=
  ⟨op, kind, operand, operand, result⟩

/-- The sum of two numbers. -/
def intAddition : BinaryOperator := row .plus .addition .int .int

/-- Whether one number is at most another. -/
def intLessOrEquals : BinaryOperator := row .ltEq .lessOrEquals .int .bool

/-- Every binary operator that is defined.  In all rows the operands have the same type. -/
def table : List BinaryOperator :=
  [intAddition,
   row .minus .subtraction .int .int,
   row .star .multiplication .int .int,
   row .slash .division .int .int,
   row .amp .bitwiseAnd .int .int,
   row .pipe .bitwiseOr .int .int,
   row .caret .bitwiseXor .int .int,
   row .eqEq .equals .int .bool,
   row .notEq .notEquals .int .bool,
   row .lt .less .int .bool,
   intLessOrEquals,
   row .gt .greater .int .bool,
   row .gtEq .greaterOrEquals .int .bool,
   row .ampAmp .logicalAnd .bool .bool,
   row .pipePipe .logicalOr .bool .bool,
   row .amp .bitwiseAnd .bool .bool,
   row .pipe .bitwiseOr .bool .bool,
   row .caret .bitwiseXor .bool .bool,
   row .eqEq .equals .bool .bool,
   row .notEq .notEquals .bool .bool,
   row .plus .concatenation .string .string,
   row .eqEq .equals .string .bool,
   row .notEq .notEquals .string .bool]

/-- What a binary operator means for operands of these types, if it is defined there. -/
def resolve? (op : BinaryOp) (left right : Ty) : Option BinaryOperator :=
  table.find? fun row => row.op == op && row.left == left && row.right == right

end BinaryOperator

end SnippetLang
