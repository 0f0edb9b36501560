import SnippetLang.Code.Frame
import SnippetLang.Typed

/-!
# Compiling flat programs

A flat program is compiled in two passes.  The first gives a slot to every variable, in the order
in which the program mentions them; the second turns each statement into items, which are then put
into the frame one after the other.

Code for an expression leaves its value on the stack, and nothing if it has none.  The value of an
expression statement is dropped, unless a result mark follows, which boxes it and stores it in the
result slot.  Comparisons that the machine does not have are its opposite ones, tested for zero.
-/

namespace SnippetLang.Code

open Typed

/-! ### The variables of a program -/

mutual

/-- The variables of an expression, in the order in which its code mentions them. -/
def exprVariables : Expr → List Variable
  | .error => []
  | .literal _ => []
  | .read x => [x]
  | .assign x value => exprVariables value ++ [x]
  | .unary _ operand => exprVariables operand
  | .binary left _ right => exprVariables left ++ exprVariables right
  | .call _ args => exprsVariables args
  | .convert _ e => exprVariables e

/-- The variables of several expressions. -/
def exprsVariables : List Expr → List Variable
  | [] => []
  | e :: es => exprVariables e ++ exprsVariables es

end

/-- The variables of a statement of a flat program. -/
def stmtVariables : Stmt → List Variable
  | .declare x init => exprVariables init ++ [x]
  | .expr e => exprVariables e
  | .gotoIf _ condition _ => exprVariables condition
  | _ => []

/-- Gives slots to variables. -/
def allocateAll (f : Frame) : List Variable → Except InternalError Frame
  | [] => .ok f
  | x :: rest => do
    let (_, f) ← f.allocate x
    allocateAll f rest

/-! ### The code of expressions -/

/-- Whether the number on top of the stack is zero. -/
def testZero : List Instr := [.loadInt 0, .compareEqual]

/-- The code of a unary operator, behind that of its operand. -/
def unaryCode : UnaryKind → List Instr
  | .identity => []
  | .negation => [.neg]
  | .logicalNegation => testZero
  | .onesComplement => [.not]

/-- The code of a binary operator, behind that of its operands. -/
def binaryCode : BinaryKind → List Instr
  | .addition => [.add]
  | .subtraction => [.sub]
  | .multiplication => [.mul]
  | .division => [.div]
  | .concatenation => [.concat]
  | .logicalAnd => [.and]
  | .bitwiseAnd => [.and]
  | .logicalOr => [.or]
  | .bitwiseOr => [.or]
  | .bitwiseXor => [.xor]
  | .equals => [.compareEqual]
  | .notEquals => .compareEqual :: testZero
  | .less => [.compareLess]
  | .lessOrEquals => .compareGreater :: testZero
  | .greater => [.compareGreater]
  | .greaterOrEquals => .compareLess :: testZero

/-- A node that no code is emitted for. -/
def unexpectedExpr {α : Type} (e : Expr) : Except InternalError α :=
  .error (.unexpectedNode .emitter e.kindName)

mutual

/-- The code of an expression, with the slots of the frame. -/
def exprCode (f : Frame) : Expr → Except InternalError (List Instr)
  | .error => unexpectedExpr .error
  | .literal (.bool b) => .ok [.loadInt (if b then 1 else 0)]
  | .literal (.int n) => .ok [.loadInt n]
  | .literal (.string s) => .ok [.loadString s]
  | .literal .void => unexpectedExpr (.literal .void)
  | .read x => do
    let slot ← f.slot x
    pure [.loadLocal slot]
  | .assign x value => do
    let code ← exprCode f value
    let slot ← f.slot x
    pure (code ++ [.storeLocal slot, .loadLocal slot])
  | .unary op operand => do
    let code ← exprCode f operand
    pure (code ++ unaryCode op.kind)
  | .binary left op right => do
    let first ← exprCode f left
    let second ← exprCode f right
    pure (first ++ second ++ binaryCode op.kind)
  | .call function args => do
    let r ← Routine.ofFunction function
    let code ← exprsCode f args
    pure (code ++ [.call r])
  | .convert target e => do
    let r ← Routine.ofConversion e.ty target
    let code ← exprCode f e
    pure (code ++ [.call r])

/-- The code of several expressions, one after the other. -/
def exprsCode (f : Frame) : List Expr → Except InternalError (List Instr)
  | [] => .ok []
  | e :: es => do
    let first ← exprCode f e
    let rest ← exprsCode f es
    pure (first ++ rest)

end

/-! ### The code of statements -/

/-- Something that is put into a frame. -/
inductive Item where
  | instr (i : Instr)
  | jump (i : Instr) (l : JumpLabel)
  | mark (l : JumpLabel)
deriving DecidableEq

/-- Puts an item into a frame. -/
def Frame.put (f : Frame) : Item → Except InternalError Frame
  | .instr i => f.emit i
  | .jump i l => f.jump i l
  | .mark l => f.mark l

/-- Puts items into a frame. -/
def Frame.putAll (f : Frame) : List Item → Except InternalError Frame
  | [] => .ok f
  | item :: rest => do
    let f ← f.put item
    f.putAll rest

/-- The code that writes a value of a type into the result. -/
def resultCode (ty : Ty) : List Instr :=
  [if ty = .void then .loadNull else .box ty, .storeLocal resultSlot]

/-- Whether a list of statements begins with a result mark. -/
def beginsWithResult : List Stmt → Bool
  | .result _ :: _ => true
  | _ => false

/-- The items of a statement.  `kept` tells that the value of an expression is used afterwards. -/
def stmtItems (f : Frame) (kept : Bool) : Stmt → Except InternalError (List Item)
  | .declare x init => do
    let code ← exprCode f init
    let slot ← f.slot x
    pure ((code ++ [Instr.storeLocal slot]).map Item.instr)
  | .expr e => do
    let code ← exprCode f e
    pure ((if kept || e.ty = .void then code else code ++ [Instr.pop]).map Item.instr)
  | .goto l => pure [.jump (.branch 0) l]
  | .gotoIf l condition jumpIf => do
    let code ← exprCode f condition
    pure (code.map Item.instr ++ [.jump (if jumpIf then .branchTrue 0 else .branchFalse 0) l])
  | .label l => pure [.mark l]
  | .result ty => pure ((resultCode ty).map Item.instr)
  | s => .error (.unexpectedNode .emitter s.kindName)

/-- The items of a flat program. -/
def programItems (f : Frame) : List Stmt → Except InternalError (List Item)
  | [] => .ok []
  | s :: rest => do
    let first ← stmtItems f (beginsWithResult rest) s
    let others ← programItems f rest
    pure (first ++ others)

/-- The method of a flat program. -/
def compile (program : List Stmt) : Except InternalError Method := do
  let f ← allocateAll Frame.empty (program.flatMap stmtVariables)
  let items ← programItems f program
  let f ← f.putAll items
  f.finalize

end SnippetLang.Code
