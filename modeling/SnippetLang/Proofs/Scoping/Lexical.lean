import SnippetLang.Proofs.Typing.Rules
import SnippetLang.Typed.Evaluation

/-!
# Lexical scoping

What scoping says that a program means.  Blocks and counting loops open scopes, an executed
declaration puts a fresh cell into the innermost scope, and when a scope is left its cells are gone.
A name means the declaration in the nearest scope that has one, executed or not, and a declaration
that was not executed reads as the default of its type.

The interpreter carries the declarations in sight besides the scopes, so that it does not depend on
which of them were executed.  It takes a number of nested calls and answers nothing when they were
not enough.
-/

namespace SnippetLang.Lexical

open Typed
open Typing (Context)

/-! ### Memory -/

/-- The cells of a scope, the newest first; an older cell of the same variable counts no more. -/
abbrev Cells := List (Variable × Value)

/-- The scopes that are open, the innermost first, and the console. -/
structure Memory where
  scopes : List Cells
  console : Console

def declaresName (level : List Variable) (name : String) : Bool := level.any (·.name == name)

/-- The value of a variable in the scopes of a context. -/
def fetch (x : Variable) : Context → List Cells → Value
  | level :: outer, cells :: scopes =>
    if declaresName level x.name then (cells.lookup x).getD x.ty.default else fetch x outer scopes
  | _, _ => x.ty.default

/-- Puts a value into the cell of a variable in the scopes of a context. -/
def put (x : Variable) (v : Value) : Context → List Cells → List Cells
  | level :: outer, cells :: scopes =>
    if declaresName level x.name then ((x, v) :: cells) :: scopes
    else cells :: put x v outer scopes
  | _, scopes => scopes

def addCell (x : Variable) (v : Value) : List Cells → List Cells
  | cells :: scopes => ((x, v) :: cells) :: scopes
  | [] => []

/-! ### Computations -/

/-- A computation on the memory, which may end in an error or not be given enough calls to end. -/
abbrev Run := ExceptT RunError (StateT Memory Option)

/-- A value or an error, and the memory behind it. -/
abbrev Answer (α : Type) := Except RunError α × Memory

namespace Run

variable {α : Type}

def exhausted : Run α := fun _ => none

def lift (e : Except RunError α) : Run α := fun m => some (e, m)

def onConsole (f : Console → Except RunError α × Console) : Run α := fun m =>
  let (result, console) := f m.console
  some (result, { m with console := console })

/-- A change of the open scopes. -/
def onScopes (f : List Cells → List Cells) : Run Unit := fun m =>
  some (.ok (), { m with scopes := f m.scopes })

def enter (cells : Cells) : Run Unit := onScopes (cells :: ·)

def leave : Run Unit := onScopes List.tail

end Run

open Run

/-! ### Expressions -/

def readVariable (Γ : Context) (x : Variable) : Run Value := fun m =>
  some (.ok (fetch x Γ m.scopes), m)

def writeVariable (Γ : Context) (x : Variable) (v : Value) : Run Unit := onScopes (put x v Γ)

mutual

/-- The value of an expression, with the declarations of a context in sight. -/
def eval (Γ : Context) : Expr → Run Value
  | .error => lift (.error (.internal (.unexpectedNode .evaluator Expr.error.kindName)))
  | .literal v => pure v
  | .read x => readVariable Γ x
  | .assign x value => do
    let v ← eval Γ value
    writeVariable Γ x v
    pure v
  | .unary op operand => do
    let v ← eval Γ operand
    lift (applyUnary op v)
  | .binary left op right => do
    let x ← eval Γ left
    let y ← eval Γ right
    lift (applyBinary op x y)
  | .call f args => do
    let r ← lift ((Routine.ofFunction f).mapError .internal)
    let values ← evalAll Γ args
    onConsole (r.invoke values)
  | .convert target e => do
    let r ← lift ((Routine.ofConversion e.ty target).mapError .internal)
    let v ← eval Γ e
    onConsole (r.invoke [v])

def evalAll (Γ : Context) : List Expr → Run (List Value)
  | [] => pure []
  | e :: es => do
    let v ← eval Γ e
    let vs ← evalAll Γ es
    pure (v :: vs)

end

def test (Γ : Context) (condition : Expr) : Run Bool := do
  let v ← eval Γ condition
  lift (needBool v)

def atMost (Γ : Context) (x : Variable) (bound : Value) : Run Bool := do
  let v ← readVariable Γ x
  let n ← lift (needInt v)
  let m ← lift (needInt bound)
  pure (n ≤ m)

def stepUp (Γ : Context) (x : Variable) : Run Value := do
  let v ← readVariable Γ x
  let n ← lift (needInt v)
  writeVariable Γ x (.int (n + 1))
  pure (.int (n + 1))

/-! ### Declarations in sight -/

end Lexical

namespace Typed.Stmt

/-- The variables that a statement declares in the scope that it stands in. -/
def declares : Stmt → List Variable
  | .declare x _ => [x]
  | .ifThen _ yes => yes.declares
  | .ifElse _ yes no => yes.declares ++ no.declares
  | .whileDo _ body => body.declares
  | .doWhile body _ => body.declares
  | _ => []

end Typed.Stmt

namespace Lexical

open Typed Run
open Typing (Context)

/-- The declarations in sight behind a statement. -/
def after (Γ : Context) (s : Stmt) : Context :=
  match Γ with
  | [] => []
  | level :: outer => (level ++ s.declares) :: outer

/-! ### Statements -/

mutual

/-- Runs a statement behind a last value, to the last value that it leaves. -/
def run : Nat → Context → Stmt → Value → Run Value
  | 0, _, _, _ => exhausted
  | n + 1, Γ, .block body, last => do
    enter []
    let last ← runAll n ([] :: Γ) body last
    leave
    pure last
  | _ + 1, Γ, .declare x init, _ => do
    let v ← eval Γ init
    onScopes (addCell x v)
    pure v
  | _ + 1, Γ, .expr e, _ => eval Γ e
  | n + 1, Γ, .ifThen condition yes, last => do
    if ← test Γ condition then run n Γ yes last else pure last
  | n + 1, Γ, .ifElse condition yes no, last => do
    if ← test Γ condition then run n Γ yes last else run n (after Γ yes) no last
  | n + 1, Γ, .whileDo condition body, last => do
    if ← test Γ condition then
      let last ← run n Γ body last
      run n Γ (.whileDo condition body) last
    else pure last
  | n + 1, Γ, .doWhile body condition, last => do
    let last ← run n Γ body last
    if ← test (after Γ body) condition then run n Γ (.doWhile body condition) last else pure last
  | n + 1, Γ, .count x lower upper body, _ => do
    let first ← eval Γ lower
    let bound ← eval Γ upper
    enter [(x, first)]
    let last ← repeats n ([x] :: Γ) x bound body bound
    leave
    pure last
  -- only structured statements have a meaning here
  | _ + 1, _, s, _ => lift (.error (.internal (.unexpectedNode .evaluator s.kindName)))

def runAll : Nat → Context → List Stmt → Value → Run Value
  | 0, _, _, _ => exhausted
  | _ + 1, _, [], last => pure last
  | n + 1, Γ, s :: rest, last => do
    let last ← run n Γ s last
    runAll n (after Γ s) rest last

/-- Runs the body of a counting loop until the variable of the loop is beyond the bound. -/
def repeats : Nat → Context → Variable → Value → Stmt → Value → Run Value
  | 0, _, _, _, _, _ => exhausted
  | n + 1, Γ, x, bound, body, last => do
    if ← atMost Γ x bound then
      let _ ← run n Γ body last
      let next ← stepUp Γ x
      repeats n Γ x bound body next
    else pure last

end

/-! ### The number of calls -/

section

variable {α β : Type} {p p' : Run α} {f f' : α → Run β}

/-- A computation gives every answer that another one gives. -/
def Run.Le (p q : Run α) : Prop := ∀ m a, p m = some a → q m = some a

theorem Run.Le.refl (p : Run α) : p.Le p := fun _ _ h => h

theorem Run.exhausted_le (p : Run α) : exhausted.Le p := nofun

theorem Run.bind_of_ok {m m' : Memory} {v : α} (h : p m = some (.ok v, m')) :
    (p >>= f) m = f v m' := by
  simp only [bind, ExceptT.bind, ExceptT.mk, StateT.bind, h, Option.bind_some, ExceptT.bindCont]

theorem Run.bind_of_error {m m' : Memory} {error : RunError} (h : p m = some (.error error, m')) :
    (p >>= f) m = some (.error error, m') := by
  simp only [bind, ExceptT.bind, ExceptT.mk, StateT.bind, h, Option.bind_some, ExceptT.bindCont]
  rfl

theorem Run.bind_of_none {m : Memory} (h : p m = none) : (p >>= f) m = none := by
  simp only [bind, ExceptT.bind, ExceptT.mk, StateT.bind, h, Option.bind_none]

theorem Run.exists_of_bind {m : Memory} {b : Answer β}
    (h : (p >>= f) m = some b) : ∃ a, p m = some a := by
  cases hm : p m with
  | none => cases (Run.bind_of_none hm).symm.trans h
  | some a => exact ⟨a, rfl⟩

theorem Run.Le.bind (hp : p.Le p') (hf : ∀ v, (f v).Le (f' v)) : (p >>= f).Le (p' >>= f') := by
  intro m a h
  cases hm : p m with
  | none =>
    rw [Run.bind_of_none hm] at h
    cases h
  | some answer =>
    obtain ⟨result, m'⟩ := answer
    cases result with
    | error error =>
      rw [Run.bind_of_error hm] at h
      rwa [Run.bind_of_error (hp m _ hm)]
    | ok v =>
      rw [Run.bind_of_ok hm] at h
      rw [Run.bind_of_ok (hp m _ hm)]
      exact hf v m' a h

theorem Run.Le.ite {q q' : Run α} {c : Prop} [Decidable c] (hp : p.Le p') (hq : q.Le q') :
    (if c then p else q).Le (if c then p' else q') := by
  split
  · exact hp
  · exact hq

/-- An answer that one more call does not change depends on none of the calls left over. -/
theorem Run.Le.of_succ {r : Nat → Run α} (h : ∀ n, (r n).Le (r (n + 1))) {n k : Nat}
    (hn : n ≤ k) : (r n).Le (r k) := by
  induction hn with
  | refl => exact .refl _
  | step _ ih => exact fun m a hm => h _ m a (ih m a hm)

end

mutual

/-- With one more call, a run gives the same answer. -/
theorem run_le_succ : (n : Nat) → (Γ : Context) → (s : Stmt) → (last : Value) →
    (run n Γ s last).Le (run (n + 1) Γ s last)
  | 0, _, _, _ => exhausted_le _
  | n + 1, _, .block body, last =>
    .bind (.refl _) fun _ => .bind (runAll_le_succ n _ body last) fun _ => .refl _
  | _ + 1, _, .declare _ _, _ => .refl _
  | _ + 1, _, .expr _, _ => .refl _
  | n + 1, Γ, .ifThen _ yes, last =>
    .bind (.refl _) fun _ => .ite (run_le_succ n Γ yes last) (.refl _)
  | n + 1, Γ, .ifElse _ yes no, last =>
    .bind (.refl _) fun _ => .ite (run_le_succ n Γ yes last) (run_le_succ n _ no last)
  | n + 1, Γ, .whileDo _ body, last =>
    .bind (.refl _) fun _ =>
      .ite (.bind (run_le_succ n Γ body last) fun _ => run_le_succ n Γ _ _) (.refl _)
  | n + 1, Γ, .doWhile body _, last =>
    .bind (run_le_succ n Γ body last) fun _ =>
      .bind (.refl _) fun _ => .ite (run_le_succ n Γ _ _) (.refl _)
  | n + 1, Γ, .count x _ _ body, _ =>
    .bind (.refl _) fun _ => .bind (.refl _) fun bound => .bind (.refl _) fun _ =>
      .bind (repeats_le_succ n ([x] :: Γ) x bound body bound) fun _ => .refl _
  | _ + 1, _, .goto _, _ => .refl _
  | _ + 1, _, .gotoIf _ _ _, _ => .refl _
  | _ + 1, _, .label _, _ => .refl _
  | _ + 1, _, .result _, _ => .refl _

theorem runAll_le_succ : (n : Nat) → (Γ : Context) → (body : List Stmt) → (last : Value) →
    (runAll n Γ body last).Le (runAll (n + 1) Γ body last)
  | 0, _, _, _ => exhausted_le _
  | _ + 1, _, [], _ => .refl _
  | n + 1, Γ, s :: rest, last =>
    .bind (run_le_succ n Γ s last) fun _ => runAll_le_succ n _ rest _

theorem repeats_le_succ : (n : Nat) → (Γ : Context) → (x : Variable) → (bound : Value) →
    (body : Stmt) → (last : Value) →
    (repeats n Γ x bound body last).Le (repeats (n + 1) Γ x bound body last)
  | 0, _, _, _, _, _ => exhausted_le _
  | n + 1, Γ, x, bound, body, last =>
    .bind (.refl _) fun _ => .ite
      (.bind (run_le_succ n Γ body last) fun _ =>
        .bind (.refl _) fun _ => repeats_le_succ n Γ x bound body _)
      (.refl _)

end

section

variable {n k : Nat} {Γ : Context} {last : Value} {m : Memory}
  {a : Answer Value}

/-- An answer does not depend on how many calls were left over. -/
theorem run_mono {s : Stmt} (h : run n Γ s last m = some a) (hn : n ≤ k) :
    run k Γ s last m = some a :=
  Run.Le.of_succ (fun i => run_le_succ i Γ s last) hn m a h

theorem runAll_mono {body : List Stmt} (h : runAll n Γ body last m = some a) (hn : n ≤ k) :
    runAll k Γ body last m = some a :=
  Run.Le.of_succ (fun i => runAll_le_succ i Γ body last) hn m a h

theorem repeats_mono {x : Variable} {bound : Value} {body : Stmt}
    (h : repeats n Γ x bound body last m = some a) (hn : n ≤ k) :
    repeats k Γ x bound body last m = some a :=
  Run.Le.of_succ (fun i => repeats_le_succ i Γ x bound body last) hn m a h

end

/-- Runs a whole program, to its value or error and the console behind it. -/
def interpret (program : Stmt) (console : Console) (n : Nat) :
    Option (Except RunError Value × Console) :=
  (run n [] program .void ⟨[], console⟩).map fun (result, m) => (result, m.console)

theorem interpret_unique {program : Stmt} {console : Console} {n k : Nat}
    {a b : Except RunError Value × Console} (ha : interpret program console n = some a)
    (hb : interpret program console k = some b) : a = b := by
  obtain ⟨c, hc, rfl⟩ := Option.map_eq_some_iff.1 ha
  obtain ⟨d, hd, rfl⟩ := Option.map_eq_some_iff.1 hb
  have hc' := run_mono hc (Nat.le_max_left n k)
  have hd' := run_mono hd (Nat.le_max_right n k)
  obtain rfl := Option.some.inj (hc'.symm.trans hd')
  rfl

end SnippetLang.Lexical
