import SnippetLang.Iteration
import SnippetLang.Typed.Evaluation

/-!
# Walking through flat programs

The direct evaluator.  It stands at an index of a flat program and executes one statement per step;
a jump goes on behind its label, the last one of that name if there are several.  The result is the
value of the last declaration or expression that was executed, or the empty value if there was none.
A structured statement or a result mark is an internal error when it is reached.
-/

namespace SnippetLang.Typed

/-- The index behind the last mark of a label. -/
def labelTarget? (l : JumpLabel) : List Stmt → Option Nat
  | [] => none
  | s :: rest =>
    match labelTarget? l rest with
    | some i => some (i + 1)
    | none =>
      match s with
      | .label m => if m = l then some 1 else none
      | _ => none

namespace Walk

/-- Where the evaluator stands. -/
structure Place where
  index : Nat      -- of the statement to execute next
  last : Value     -- of the last declaration or expression
deriving DecidableEq

/-- The beginning of a program. -/
def Place.start : Place := ⟨0, .void⟩

/-- The place behind a label. -/
def jump (program : List Stmt) (l : JumpLabel) (last : Value) : Eval Place :=
  match labelTarget? l program with
  | some index => pure ⟨index, last⟩
  | none => Eval.liftInternal (.error (.unmarkedLabel l))

/-- Executes a statement at a place. -/
def execute (program : List Stmt) (p : Place) : Stmt → Eval Place
  | .declare x init => do
    let v ← init.eval
    writeVariable x v
    pure ⟨p.index + 1, v⟩
  | .expr e => do
    let v ← e.eval
    pure ⟨p.index + 1, v⟩
  | .goto l => jump program l p.last
  | .gotoIf l condition jumpIf => do
    let v ← condition.eval
    let b ← Eval.lift (needBool v)
    if b = jumpIf then jump program l p.last else pure ⟨p.index + 1, p.last⟩
  | .label _ => pure ⟨p.index + 1, p.last⟩
  | s => Eval.liftInternal (.error (.unexpectedNode .evaluator s.kindName))

/-- One step of a program. -/
def step (program : List Stmt) (state : Place × Store) : Progress (Place × Store) Outcome :=
  match program[state.1.index]? with
  | none => .finished (.ok state.1.last state.2)
  | some s =>
    match execute program state.1 s state.2 with
    | .ok p store => .running (p, store)
    | .error e store => .finished (.error e store)

end Walk

/-- Runs a flat program from a store, for a number of steps. -/
def walk (program : List Stmt) (store : Store) (steps : Nat) : Option Outcome :=
  runFor (Walk.step program) steps (Walk.Place.start, store)

end SnippetLang.Typed
