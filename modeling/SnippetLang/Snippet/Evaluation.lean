import SnippetLang.Code.Emission
import SnippetLang.Code.Machine
import SnippetLang.Snippet
import SnippetLang.Typed.Printer
import SnippetLang.Typed.Walk

/-!
# Evaluating snippets

A snippet without issues can be evaluated in two ways that are meant to be indistinguishable: its
flat program is walked through, or it is compiled and its method is run.  A snippet with issues is
not evaluated at all.  `Execution` is a run of either kind that can be taken a step at a time.
-/

namespace SnippetLang

/-- A way of evaluating. -/
inductive Backend where
  | treeWalk
  | compiled
deriving DecidableEq

/-! ### How much a step can read -/

mutual

/-- How many lines the evaluation of an expression reads at most: one for each call that reads. -/
def Typed.Expr.linesWanted : Typed.Expr → Nat
  | .error => 0
  | .literal _ => 0
  | .read _ => 0
  | .assign _ value => value.linesWanted
  | .unary _ operand => operand.linesWanted
  | .binary left _ right => left.linesWanted + right.linesWanted
  | .call f args =>
    Typed.Expr.linesWantedAll args + if Routine.functionName f = Routine.input.name then 1 else 0
  | .convert _ e => e.linesWanted

/-- How many lines the evaluation of expressions reads at most. -/
def Typed.Expr.linesWantedAll : List Typed.Expr → Nat
  | [] => 0
  | e :: es => e.linesWanted + Typed.Expr.linesWantedAll es

end

/-- How many lines the execution of a statement of a flat program reads at most. -/
def Typed.Stmt.linesWanted : Typed.Stmt → Nat
  | .declare _ init => init.linesWanted
  | .expr e => e.linesWanted
  | .gotoIf _ condition _ => condition.linesWanted
  | _ => 0

/-! ### Runs -/

/-- A run that was started and did not end yet. -/
inductive Execution where
  | walking (program : List Typed.Stmt) (place : Typed.Walk.Place) (store : Store)
  | running (method : Code.Method) (machine : Code.Machine) (start : Store)

namespace Execution

/-- One step of a run. -/
def step : Execution → Progress Execution Outcome
  | walking program place store =>
    match Typed.Walk.step program (place, store) with
    | .running (place, store) => .running (walking program place store)
    | .finished outcome => .finished outcome
  | running method machine start =>
    match Code.Machine.step method machine with
    | .running machine => .running (running method machine start)
    | .finished ending => .finished (method.outcome start ending)

/-- The console of a run. -/
def console : Execution → Console
  | walking _ _ store => store.console
  | running _ machine _ => machine.console

/-- A run with another console. -/
def withConsole (console : Console) : Execution → Execution
  | walking program place store => walking program place { store with console := console }
  | running method machine start => running method { machine with console := console } start

/-- How many lines of input the next step can read at most. -/
def linesWanted : Execution → Nat
  | walking program place _ => (program[place.index]?).elim 0 Typed.Stmt.linesWanted
  | running method machine _ =>
    if method.instructions[machine.index]? = some (.call .input) then 1 else 0

/-- Running a walk is walking. -/
theorem runFor_walking (program : List Typed.Stmt) (place : Typed.Walk.Place) (store : Store)
    (steps : Nat) :
    runFor step steps (walking program place store) =
      runFor (Typed.Walk.step program) steps (place, store) := by
  induction steps generalizing place store with
  | zero => rfl
  | succ n ih =>
    simp only [runFor, step]
    cases Typed.Walk.step program (place, store) with
    | running s => exact ih s.1 s.2
    | finished outcome => rfl

/-- Running a method is running its machine. -/
theorem runFor_running (method : Code.Method) (machine : Code.Machine) (start : Store)
    (steps : Nat) :
    runFor step steps (running method machine start) =
      (runFor (Code.Machine.step method) steps machine).map (method.outcome start) := by
  induction steps generalizing machine with
  | zero => rfl
  | succ n ih =>
    simp only [runFor, step]
    cases Code.Machine.step method machine with
    | running m => exact ih m
    | finished ending => rfl

end Execution

namespace Snippet

/-- The compiled method of a snippet. -/
def method (s : Snippet) : Except InternalError Code.Method := Code.compile s.marked

/-- The run of a snippet that has no issues, at its beginning. -/
def execution (s : Snippet) (backend : Backend) (store : Store) :
    Except InternalError Execution :=
  match backend with
  | .treeWalk => .ok (.walking s.lowered Typed.Walk.Place.start store)
  | .compiled => s.method.map fun m => .running m (m.start store) store

/-- How an evaluation ended. -/
inductive Evaluation where
  | rejected (issues : List Issue)     -- the snippet has issues, and nothing was evaluated
  | ended (outcome : Outcome)

/-- Evaluates a snippet on a store, for a number of steps. -/
def evaluate (s : Snippet) (backend : Backend) (store : Store) (steps : Nat) :
    Option Evaluation :=
  if s.issues.isEmpty then
    match s.execution backend store with
    | .ok execution => (runFor Execution.step steps execution).map .ended
    | .error e => some (.ended (.error (.internal e) store))
  else
    some (.rejected s.issues)

/-- The typed tree of a snippet as text, before or after lowering. -/
def treeText (s : Snippet) (lowered : Bool) : String :=
  if lowered then (Typed.Stmt.block s.lowered).text else s.statement.text

/-- The listing of the compiled method, of a snippet without issues. -/
def listing (s : Snippet) : Except (List Issue) (Except InternalError String) :=
  if s.issues.isEmpty then .ok (s.method.map Code.Method.text) else .error s.issues

end Snippet

end SnippetLang
