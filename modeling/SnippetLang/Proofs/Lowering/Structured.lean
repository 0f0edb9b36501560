import SnippetLang.Code.Emission
import SnippetLang.Typed.Evaluation

/-!
# Structured statements and their meaning

What statements mean, told without labels, jumps or a program counter: a statement runs from the
last value and a store to an outcome.  A loop runs its body and then itself again, so a statement
that never ends has no outcome.  The bound of a counting loop is a value here, evaluated once; no
variable holds it.

Nothing is assumed about types.  A condition that is not a truth value, or a counter that is not a
number, is the same error that the evaluation of expressions has for it.
-/

namespace SnippetLang

/-! ### Hidden and visible variables -/

/-- The name that lowering gives to the hidden bound of a counting loop. -/
def boundName (k : Nat) : String := s!"<upper>{k}"

/-- A variable does not have the name of a hidden bound. -/
def Variable.Visible (x : Variable) : Prop := ∀ k, x.name ≠ boundName k

/-- Names that programs can write begin with another character than the hidden ones. -/
theorem Variable.visible_of_head {x : Variable} (h : x.name.toList.head? ≠ some '<') :
    x.Visible := by
  rintro k hk
  rw [hk] at h
  simp [boundName, toString] at h

/-! ### Outcomes that look the same -/

/-- The value of a run that ended with one. -/
def Outcome.value? : Outcome → Option Value
  | .ok v _ => some v
  | .error _ _ => none

/-- Two stores agree: they have the same console, and every visible variable is bound alike. -/
structure Store.Agrees (σ τ : Store) : Prop where
  console : σ.console = τ.console
  visible : ∀ x : Variable, x.Visible → σ.bindings.find? x = τ.bindings.find? x

/-- Two outcomes have the same value or error, and stores that agree. -/
inductive Outcome.Alike : Outcome → Outcome → Prop where
  | ok {v : Value} {σ τ : Store} : σ.Agrees τ → Alike (.ok v σ) (.ok v τ)
  | error {error : RunError} {σ τ : Store} :
      σ.Agrees τ → Alike (.error error σ) (.error error τ)

namespace Typed

/-! ### Structured statements -/

mutual

/-- Nothing in a statement jumps, is a label or marks a result. -/
def Stmt.Structured : Stmt → Prop
  | .block body => Stmt.AllStructured body
  | .declare _ _ => True
  | .expr _ => True
  | .ifThen _ yes => yes.Structured
  | .ifElse _ yes no => yes.Structured ∧ no.Structured
  | .whileDo _ body => body.Structured
  | .doWhile body _ => body.Structured
  | .count _ _ _ body => body.Structured
  | .goto _ => False
  | .gotoIf _ _ _ => False
  | .label _ => False
  | .result _ => False

/-- The same for all statements of a list. -/
def Stmt.AllStructured : List Stmt → Prop
  | [] => True
  | s :: rest => s.Structured ∧ Stmt.AllStructured rest

end

/-! ### Statements without hidden variables -/

/-- All variables of an expression are visible. -/
def Expr.Visible (e : Expr) : Prop := ∀ x ∈ Code.exprVariables e, x.Visible

mutual

/-- All variables of a statement are visible. -/
def Stmt.Visible : Stmt → Prop
  | .block body => Stmt.AllVisible body
  | .declare x init => x.Visible ∧ init.Visible
  | .expr e => e.Visible
  | .ifThen condition yes => condition.Visible ∧ yes.Visible
  | .ifElse condition yes no => condition.Visible ∧ yes.Visible ∧ no.Visible
  | .whileDo condition body => condition.Visible ∧ body.Visible
  | .doWhile body condition => body.Visible ∧ condition.Visible
  | .count x lower upper body => x.Visible ∧ lower.Visible ∧ upper.Visible ∧ body.Visible
  | .goto _ => True
  | .gotoIf _ condition _ => condition.Visible
  | .label _ => True
  | .result _ => True

/-- The same for all statements of a list. -/
def Stmt.AllVisible : List Stmt → Prop
  | [] => True
  | s :: rest => s.Visible ∧ Stmt.AllVisible rest

end

/-! ### The computations in a statement -/

/-- Gives a variable the value of an expression, which is also the result. -/
def assignFrom (x : Variable) (init : Expr) : Eval Value := do
  let v ← init.eval
  writeVariable x v
  pure v

theorem assignFrom_ok {x : Variable} {init : Expr} {v : Value} {σ σ' : Store}
    (h : init.eval σ = .ok v σ') :
    assignFrom x init σ = .ok v { σ' with bindings := σ'.bindings.set x v } := by
  simp only [assignFrom, bind, EStateM.bind, h]
  rfl

theorem assignFrom_error {x : Variable} {init : Expr} {error : RunError} {σ σ' : Store}
    (h : init.eval σ = .error error σ') : assignFrom x init σ = .error error σ' := by
  simp only [assignFrom, bind, EStateM.bind, h]

/-- The truth value of a condition. -/
def test (condition : Expr) : Eval Bool := do
  let v ← condition.eval
  Eval.lift (needBool v)

/-- Whether the variable of a counting loop is at most its bound. -/
def atMost (x : Variable) (bound : Value) : Eval Bool := do
  let v ← readVariable x
  let n ← Eval.lift (needInt v)
  let m ← Eval.lift (needInt bound)
  pure (n ≤ m)

/-- Adds one to the variable of a counting loop, wrapping around. -/
def stepUp (x : Variable) : Eval Value := do
  let v ← readVariable x
  let n ← Eval.lift (needInt v)
  writeVariable x (.int (n + 1))
  pure (.int (n + 1))

/-! ### Statements -/

mutual

/-- A statement runs, from a last value and a store, to an outcome.  Its value is that of the last
    declaration or expression executed, the declarations and steps of counting loops included. -/
inductive Runs : Stmt → Value → Store → Outcome → Prop where
  | block {body : List Stmt} {last : Value} {σ : Store} {o : Outcome} :
      RunsAll body last σ o → Runs (.block body) last σ o
  | declare {x : Variable} {init : Expr} {last : Value} {σ : Store} :
      Runs (.declare x init) last σ (assignFrom x init σ)
  | expr {e : Expr} {last : Value} {σ : Store} : Runs (.expr e) last σ (e.eval σ)
  -- conditions
  | ifThenFails {c : Expr} {yes : Stmt} {last : Value} {σ σ' : Store} {error : RunError} :
      test c σ = .error error σ' → Runs (.ifThen c yes) last σ (.error error σ')
  | ifThenTrue {c : Expr} {yes : Stmt} {last : Value} {σ σ' : Store} {o : Outcome} :
      test c σ = .ok true σ' → Runs yes last σ' o → Runs (.ifThen c yes) last σ o
  | ifThenFalse {c : Expr} {yes : Stmt} {last : Value} {σ σ' : Store} :
      test c σ = .ok false σ' → Runs (.ifThen c yes) last σ (.ok last σ')
  | ifElseFails {c : Expr} {yes no : Stmt} {last : Value} {σ σ' : Store} {error : RunError} :
      test c σ = .error error σ' → Runs (.ifElse c yes no) last σ (.error error σ')
  | ifElseTrue {c : Expr} {yes no : Stmt} {last : Value} {σ σ' : Store} {o : Outcome} :
      test c σ = .ok true σ' → Runs yes last σ' o → Runs (.ifElse c yes no) last σ o
  | ifElseFalse {c : Expr} {yes no : Stmt} {last : Value} {σ σ' : Store} {o : Outcome} :
      test c σ = .ok false σ' → Runs no last σ' o → Runs (.ifElse c yes no) last σ o
  -- loops
  | whileFails {c : Expr} {body : Stmt} {last : Value} {σ σ' : Store} {error : RunError} :
      test c σ = .error error σ' → Runs (.whileDo c body) last σ (.error error σ')
  | whileDone {c : Expr} {body : Stmt} {last : Value} {σ σ' : Store} :
      test c σ = .ok false σ' → Runs (.whileDo c body) last σ (.ok last σ')
  | whileBodyFails {c : Expr} {body : Stmt} {last : Value} {σ σ' σ'' : Store} {error : RunError} :
      test c σ = .ok true σ' → Runs body last σ' (.error error σ'') →
      Runs (.whileDo c body) last σ (.error error σ'')
  | whileAgain {c : Expr} {body : Stmt} {last last' : Value} {σ σ' σ'' : Store} {o : Outcome} :
      test c σ = .ok true σ' → Runs body last σ' (.ok last' σ'') →
      Runs (.whileDo c body) last' σ'' o → Runs (.whileDo c body) last σ o
  | doBodyFails {body : Stmt} {c : Expr} {last : Value} {σ σ' : Store} {error : RunError} :
      Runs body last σ (.error error σ') → Runs (.doWhile body c) last σ (.error error σ')
  | doFails {body : Stmt} {c : Expr} {last last' : Value} {σ σ' σ'' : Store} {error : RunError} :
      Runs body last σ (.ok last' σ') → test c σ' = .error error σ'' →
      Runs (.doWhile body c) last σ (.error error σ'')
  | doDone {body : Stmt} {c : Expr} {last last' : Value} {σ σ' σ'' : Store} :
      Runs body last σ (.ok last' σ') → test c σ' = .ok false σ'' →
      Runs (.doWhile body c) last σ (.ok last' σ'')
  | doAgain {body : Stmt} {c : Expr} {last last' : Value} {σ σ' σ'' : Store} {o : Outcome} :
      Runs body last σ (.ok last' σ') → test c σ' = .ok true σ'' →
      Runs (.doWhile body c) last' σ'' o → Runs (.doWhile body c) last σ o
  -- counting loops
  | countLowerFails {x : Variable} {lower upper : Expr} {body : Stmt} {last : Value} {σ σ' : Store}
      {error : RunError} :
      assignFrom x lower σ = .error error σ' →
      Runs (.count x lower upper body) last σ (.error error σ')
  | countUpperFails {x : Variable} {lower upper : Expr} {body : Stmt} {last first : Value}
      {σ σ' σ'' : Store} {error : RunError} :
      assignFrom x lower σ = .ok first σ' → upper.eval σ' = .error error σ'' →
      Runs (.count x lower upper body) last σ (.error error σ'')
  | count {x : Variable} {lower upper : Expr} {body : Stmt} {last first bound : Value}
      {σ σ' σ'' : Store} {o : Outcome} :
      assignFrom x lower σ = .ok first σ' → upper.eval σ' = .ok bound σ'' →
      Repeats x bound body bound σ'' o → Runs (.count x lower upper body) last σ o

/-- Statements run one after the other, as long as none ends in an error. -/
inductive RunsAll : List Stmt → Value → Store → Outcome → Prop where
  | nil {last : Value} {σ : Store} : RunsAll [] last σ (.ok last σ)
  | fails {s : Stmt} {rest : List Stmt} {last : Value} {σ σ' : Store} {error : RunError} :
      Runs s last σ (.error error σ') → RunsAll (s :: rest) last σ (.error error σ')
  | cons {s : Stmt} {rest : List Stmt} {last last' : Value} {σ σ' : Store} {o : Outcome} :
      Runs s last σ (.ok last' σ') → RunsAll rest last' σ' o → RunsAll (s :: rest) last σ o

/-- While a variable is at most a bound, a body runs and the variable is stepped up. -/
inductive Repeats : Variable → Value → Stmt → Value → Store → Outcome → Prop where
  | fails {x : Variable} {bound last : Value} {body : Stmt} {σ σ' : Store} {error : RunError} :
      atMost x bound σ = .error error σ' → Repeats x bound body last σ (.error error σ')
  | done {x : Variable} {bound last : Value} {body : Stmt} {σ σ' : Store} :
      atMost x bound σ = .ok false σ' → Repeats x bound body last σ (.ok last σ')
  | bodyFails {x : Variable} {bound last : Value} {body : Stmt} {σ σ' σ'' : Store}
      {error : RunError} :
      atMost x bound σ = .ok true σ' → Runs body last σ' (.error error σ'') →
      Repeats x bound body last σ (.error error σ'')
  | stepFails {x : Variable} {bound last last' : Value} {body : Stmt} {σ σ' σ'' σ''' : Store}
      {error : RunError} :
      atMost x bound σ = .ok true σ' → Runs body last σ' (.ok last' σ'') →
      stepUp x σ'' = .error error σ''' → Repeats x bound body last σ (.error error σ''')
  | again {x : Variable} {bound last last' next : Value} {body : Stmt} {σ σ' σ'' σ''' : Store}
      {o : Outcome} :
      atMost x bound σ = .ok true σ' → Runs body last σ' (.ok last' σ'') →
      stepUp x σ'' = .ok next σ''' → Repeats x bound body next σ''' o →
      Repeats x bound body last σ o

end

end Typed

end SnippetLang
