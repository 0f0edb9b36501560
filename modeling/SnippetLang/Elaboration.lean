import SnippetLang.Scope
import SnippetLang.Tree
import SnippetLang.Issue
import SnippetLang.Typed

/-!
# Elaboration

From surface trees to typed trees.  Every surface tree has a typed one; where a rule is broken an
issue is added and the expression becomes `error`.  An expression of the error type was reported
before, so every check that meets one stays silent.

An expression is elaborated in a scope that it does not change.  A statement answers the scope of
the statements after it: a declaration adds to the innermost level, and what is declared inside a
block or a counting loop is gone behind it.
-/

namespace SnippetLang.Elaboration

open SnippetLang.Tree (Ident)

/-- A result, and the issues found on the way in the order of their discovery. -/
abbrev Checked (α : Type) := α × List Issue

/-! ### Checks on elaborated expressions -/

/-- Reports an expression without a value where one is needed. -/
def requireValue (span : Span) (checked : Checked Typed.Expr) : Checked Typed.Expr :=
  if checked.1.ty = .void then
    (.error, checked.2 ++ [⟨.valueExpected, span⟩])
  else
    checked

/-- Reports an expression without a value, or with one of another type than the one needed. -/
def requireTy (target : Ty) (span : Span) (checked : Checked Typed.Expr) : Checked Typed.Expr :=
  let checked := requireValue span checked
  let ty := checked.1.ty
  if ty ≠ target ∧ ty ≠ .error then
    (.error, checked.2 ++ [⟨.cannotConvert ty target, span⟩])
  else
    checked

/-- The variable that a name means; a missing name was reported when it was read. -/
def nameUse (scope : Scope) (ident : Ident) : Checked Typed.Expr :=
  if ident.name = "" then
    (.error, [])
  else
    match scope.lookup? ident.name with
    | some x => (.read x, [])
    | none => (.error, [⟨.undefinedVariable ident.name, ident.span⟩])

/-- The assignment of an elaborated value.  Assigning to a read-only variable is reported, but it
    is an assignment all the same. -/
def assignment (scope : Scope) (target : Ident) (value : Typed.Expr) : Checked Typed.Expr :=
  match scope.lookup? target.name with
  | none => (.error, [⟨.undefinedVariable target.name, target.span⟩])
  | some x =>
    let readOnly : List Issue :=
      if x.readOnly then [⟨.readOnlyTarget target.name, target.span⟩] else []
    if value.ty ≠ x.ty ∧ value.ty ≠ .error then
      (.error, readOnly ++ [⟨.cannotConvert value.ty x.ty, target.span⟩])
    else
      (.assign x value, readOnly)

/-- The application of a unary operator. -/
def unaryUse (op : UnaryOp) (opSpan : Span) (operand : Typed.Expr) : Checked Typed.Expr :=
  if operand.ty = .error then
    (.error, [])
  else
    match UnaryOperator.resolve? op operand.ty with
    | some row => (.unary row operand, [])
    | none => (.error, [⟨.undefinedUnary op.spelling operand.ty, opSpan⟩])

/-- The application of a binary operator. -/
def binaryUse (op : BinaryOp) (opSpan : Span) (left right : Typed.Expr) : Checked Typed.Expr :=
  if left.ty = .error ∨ right.ty = .error then
    (.error, [])
  else
    match BinaryOperator.resolve? op left.ty right.ty with
    | some row => (.binary left row right, [])
    | none => (.error, [⟨.undefinedBinary op.spelling left.ty right.ty, opSpan⟩])

/-- Whether values of one type can be converted to another. -/
def convertible (source target : Ty) : Bool :=
  source == target ||
    match source, target with
    | .int, .string | .bool, .string | .string, .int | .string, .bool => true
    | _, _ => false

/-- The conversion of an elaborated expression; one to its own type is left out. -/
def conversion (target : Ty) (span : Span) (e : Typed.Expr) : Checked Typed.Expr :=
  if e.ty = .error then
    (.error, [])
  else if !convertible e.ty target then
    (.error, [⟨.cannotConvert e.ty target, span⟩])
  else if e.ty = target then
    (e, [])
  else
    (.convert target e, [])

/-! ### Calls -/

/-- An elaborated argument with the extent that it was read from. -/
structure Argument where
  span : Span
  checked : Checked Typed.Expr

/-- The argument, which must have a value. -/
def Argument.value (a : Argument) : Checked Typed.Expr := requireValue a.span a.checked

/-- The arguments for a list of parameters, as far as they fit: the first that does not ends the
    search for issues. -/
def arguments : List Parameter → List Argument → Checked (Option (List Typed.Expr))
  | parameter :: parameters, arg :: args =>
    let (e, found) := arg.value
    if e.ty = .error then
      (none, found)
    else if e.ty ≠ parameter.ty then
      (none, found ++ [⟨.wrongArgumentType parameter.name parameter.ty e.ty, arg.span⟩])
    else
      let (rest, more) := arguments parameters args
      (rest.map (e :: ·), found ++ more)
  | _, _ => (some [], [])

/-- A call of a function. -/
def functionUse (callee : Ident) (span : Span) (args : List Argument) : Checked Typed.Expr :=
  match Function.ofName? callee.name with
  | none => (.error, [⟨.undefinedFunction callee.name, callee.span⟩])
  | some f =>
    if args.length = f.parameters.length then
      match arguments f.parameters args with
      | (some args, found) => (.call f args, found)
      | (none, found) => (.error, found)
    else
      (.error, [⟨.wrongArgumentCount f.name f.parameters.length args.length, span⟩])

/-- What is written like a call: a conversion if the name is that of a type and there is one
    argument, a call of a function otherwise. -/
def callUse (callee : Ident) (span : Span) (args : List Argument) : Checked Typed.Expr :=
  match Ty.ofName? callee.name, args with
  | some target, [arg] =>
    let (e, found) := arg.value
    let (e, more) := conversion target arg.span e
    (e, found ++ more)
  | _, _ => functionUse callee span args

/-! ### Expressions -/

mutual

/-- An expression, which may be one without a value. -/
def expr (scope : Scope) : Tree.Expr → Checked Typed.Expr
  | .error _ => (.error, [])
  | .int _ n => (.literal (.int n), [])
  | .bool _ b => (.literal (.bool b), [])
  | .string _ s => (.literal (.string s), [])
  | .name ident => nameUse scope ident
  | .assign target value =>
    let (value, found) := requireValue value.span (expr scope value)
    let (e, more) := assignment scope target value
    (e, found ++ more)
  | .unary op opSpan operand =>
    let (operand, found) := requireValue operand.span (expr scope operand)
    let (e, more) := unaryUse op opSpan operand
    (e, found ++ more)
  | .binary left op opSpan right =>
    let (left, found) := requireValue left.span (expr scope left)
    let (right, further) := requireValue right.span (expr scope right)
    let (e, more) := binaryUse op opSpan left right
    (e, found ++ further ++ more)
  | .paren _ inner _ => expr scope inner
  | .call callee args closing => callUse callee (callee.span.merge closing) (exprs scope args)

/-- The arguments of a call.  Which of their issues count is for the call to say. -/
def exprs (scope : Scope) : List Tree.Expr → List Argument
  | [] => []
  | e :: es => ⟨e.span, expr scope e⟩ :: exprs scope es

end

/-- An expression that must have a value. -/
def value (scope : Scope) (e : Tree.Expr) : Checked Typed.Expr :=
  requireValue e.span (expr scope e)

/-- An expression that must have a value of a type. -/
def valueOf (target : Ty) (scope : Scope) (e : Tree.Expr) : Checked Typed.Expr :=
  requireTy target e.span (expr scope e)

/-! ### Statements -/

/-- Declares a variable.  A missing name declares nothing, and neither does one that its level
    has already, which is reported. -/
def declare (scope : Scope) (ident : Ident) (readOnly : Bool) (ty : Ty) :
    Checked (Variable × Scope) :=
  let x : Variable := ⟨ident.name, readOnly, ty⟩
  if ident.name = "" then
    ((x, scope), [])
  else
    match scope.declare? x with
    | some scope => ((x, scope), [])
    | none => ((x, scope), [⟨.alreadyDeclared ident.name, ident.span⟩])

mutual

/-- A statement, and the scope behind it. -/
def stmt (scope : Scope) : Tree.Stmt → Checked (Typed.Stmt × Scope)
  | .block _ body _ =>
    let ((body, _), found) := stmts scope.push body
    ((.block body, scope), found)
  | .declare _ readOnly name init =>
    let (init, found) := value scope init
    let ((x, scope), more) := declare scope name readOnly init.ty
    ((.declare x init, scope), found ++ more)
  | .ifThen _ condition yes =>
    let (condition, found) := valueOf .bool scope condition
    let ((yes, scope), more) := stmt scope yes
    ((.ifThen condition yes, scope), found ++ more)
  | .ifElse _ condition yes no =>
    let (condition, found) := valueOf .bool scope condition
    let ((yes, scope), further) := stmt scope yes
    let ((no, scope), more) := stmt scope no
    ((.ifElse condition yes no, scope), found ++ further ++ more)
  | .whileDo _ condition body =>
    let (condition, found) := valueOf .bool scope condition
    let ((body, scope), more) := stmt scope body
    ((.whileDo condition body, scope), found ++ more)
  | .doWhile _ body condition =>
    let ((body, scope), found) := stmt scope body
    let (condition, more) := valueOf .bool scope condition
    ((.doWhile body condition, scope), found ++ more)
  | .count _ name lower upper body =>
    let (lower, found) := valueOf .int scope lower
    let (upper, further) := valueOf .int scope upper
    let ((x, inner), issues) := declare scope.push name true .int
    let ((body, _), more) := stmt inner body
    ((.count x lower upper body, scope), found ++ further ++ issues ++ more)
  | .expr e =>
    let (e, found) := expr scope e
    ((.expr e, scope), found)

/-- Statements one after the other, and the scope behind them. -/
def stmts (scope : Scope) : List Tree.Stmt → Checked (List Typed.Stmt × Scope)
  | [] => (([], scope), [])
  | s :: rest =>
    let ((s, scope), found) := stmt scope s
    let ((rest, scope), more) := stmts scope rest
    ((s :: rest, scope), found ++ more)

end

end SnippetLang.Elaboration
