import SnippetLang.Routine.Invocation
import SnippetLang.Store

/-!
# Evaluating expressions

The direct meaning of typed expressions.  Operands are evaluated from left to right, both of them
for every operator, and numbers wrap around at 32 bits.  Operators and routines check the values
that they get, so that also a tree with wrong types has a meaning, namely an internal error.
-/

namespace SnippetLang.Typed

/-! ### Operators -/

/-- An operand that must be a truth value. -/
def needBool : Value → Except RunError Bool
  | .bool b => .ok b
  | v => .error (.internal (.operandType .bool v.ty))

/-- An operand that must be a number. -/
def needInt : Value → Except RunError Int32
  | .int n => .ok n
  | v => .error (.internal (.operandType .int v.ty))

/-- The value of a unary operator. -/
def applyUnary (op : UnaryOperator) (operand : Value) : Except RunError Value :=
  match op.kind with
  | .identity => do pure (.int (← needInt operand))
  | .negation => do pure (.int (-(← needInt operand)))
  | .logicalNegation => do pure (.bool (!(← needBool operand)))
  | .onesComplement => do pure (.int (~~~(← needInt operand)))

/-- A function of two truth values, applied to operands. -/
def onBools (f : Bool → Bool → Value) (left right : Value) : Except RunError Value := do
  let x ← needBool left
  let y ← needBool right
  pure (f x y)

/-- A function of two numbers, applied to operands. -/
def onInts (f : Int32 → Int32 → Value) (left right : Value) : Except RunError Value := do
  let x ← needInt left
  let y ← needInt right
  pure (f x y)

/-- The quotient of two operands, rounded toward zero. -/
def divide (left right : Value) : Except RunError Value := do
  let x ← needInt left
  let y ← needInt right
  if y = 0 then .error .divisionByZero else pure (.int (x / y))

/-- Two texts in a row.  An error names the type of the left operand, whichever is wrong. -/
def concatenate (left right : Value) : Except RunError Value :=
  match left, right with
  | .string s, .string t => .ok (.string (s ++ t))
  | left, _ => .error (.internal (.operandType .string left.ty))

/-- The value of a binary operator.  The bitwise ones work on truth values too, and the row of the
    operator tells which. -/
def applyBinary (op : BinaryOperator) (left right : Value) : Except RunError Value :=
  match op.kind with
  | .addition => onInts (fun x y => .int (x + y)) left right
  | .subtraction => onInts (fun x y => .int (x - y)) left right
  | .multiplication => onInts (fun x y => .int (x * y)) left right
  | .division => divide left right
  | .concatenation => concatenate left right
  | .logicalAnd => onBools (fun x y => .bool (x && y)) left right
  | .logicalOr => onBools (fun x y => .bool (x || y)) left right
  | .bitwiseAnd =>
    if op.left = .bool then onBools (fun x y => .bool (x && y)) left right
    else onInts (fun x y => .int (x &&& y)) left right
  | .bitwiseOr =>
    if op.left = .bool then onBools (fun x y => .bool (x || y)) left right
    else onInts (fun x y => .int (x ||| y)) left right
  | .bitwiseXor =>
    if op.left = .bool then onBools (fun x y => .bool (x ^^ y)) left right
    else onInts (fun x y => .int (x ^^^ y)) left right
  | .equals => .ok (.bool (left == right))
  | .notEquals => .ok (.bool (left != right))
  | .less => onInts (fun x y => .bool (x < y)) left right
  | .lessOrEquals => onInts (fun x y => .bool (x ≤ y)) left right
  | .greater => onInts (fun x y => .bool (y < x)) left right
  | .greaterOrEquals => onInts (fun x y => .bool (y ≤ x)) left right

/-! ### Expressions -/

/-- The value of a variable. -/
def readVariable (x : Variable) : Eval Value := fun store => .ok (store.bindings.read x) store

/-- Gives a variable a value. -/
def writeVariable (x : Variable) (v : Value) : Eval Unit := fun store =>
  .ok () { store with bindings := store.bindings.set x v }

mutual

/-- The value of an expression. -/
def Expr.eval : Expr → Eval Value
  | .error => Eval.liftInternal (.error (.unexpectedNode .evaluator Expr.error.kindName))
  | .literal v => pure v
  | .read x => readVariable x
  | .assign x value => do
    let v ← value.eval
    writeVariable x v
    pure v
  | .unary op operand => do
    let v ← operand.eval
    Eval.lift (applyUnary op v)
  | .binary left op right => do
    let x ← left.eval
    let y ← right.eval
    Eval.lift (applyBinary op x y)
  | .call f args => do
    let r ← Eval.liftInternal (Routine.ofFunction f)
    let values ← Expr.evalAll args
    Eval.onConsole (r.invoke values)
  | .convert target e => do
    let r ← Eval.liftInternal (Routine.ofConversion e.ty target)
    let v ← e.eval
    Eval.onConsole (r.invoke [v])

/-- The values of expressions, evaluated from left to right. -/
def Expr.evalAll : List Expr → Eval (List Value)
  | [] => pure []
  | e :: es => do
    let v ← e.eval
    let vs ← Expr.evalAll es
    pure (v :: vs)

end

end SnippetLang.Typed
