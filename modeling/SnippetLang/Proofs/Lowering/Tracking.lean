import SnippetLang.Proofs.Lowering.Structured
import SnippetLang.Typed.Flat

/-!
# Evaluation beside hidden variables

Two computations run in parallel when they start on stores that agree and end in the same way on
stores that agree.  The second store holds the bounds of counting loops besides: those numbered up
to `n` are fixed by `held`, and a computation that mentions visible variables only leaves them as
they are.
-/

namespace SnippetLang.Typed

/-- The hidden bound of a counting loop. -/
def hiddenBound (k : Nat) : Variable := ⟨boundName k, true, .int⟩

theorem boundName_injective {j k : Nat} (h : boundName j = boundName k) : j = k := by
  have hdigits : Nat.toDigits 10 j = Nat.toDigits 10 k := by
    simpa [boundName, toString] using congrArg (·.toList) h
  rw [← Nat.ofDigitChars_ten_toDigits (n := j), hdigits, Nat.ofDigitChars_ten_toDigits]

theorem same_hiddenBound_iff {j k : Nat} : (hiddenBound j).same (hiddenBound k) = true ↔ j = k := by
  rw [Variable.same_iff]
  constructor
  · exact fun h => boundName_injective h.1
  · rintro rfl
    exact ⟨rfl, rfl⟩

/-- A visible variable shares its cell with visible variables only. -/
theorem not_same_hiddenBound {x : Variable} (h : x.Visible) (k : Nat) :
    ¬ x.same (hiddenBound k) = true := by
  intro hs
  exact h k (Variable.same_iff.1 hs).1

/-! ### Stores side by side -/

/-- Two stores agree, and the second one holds certain values for the first hidden bounds. -/
structure Tracks (n : Nat) (held : Nat → Option Value) (σ τ : Store) : Prop where
  agrees : σ.Agrees τ
  held : ∀ k ≤ n, τ.bindings.find? (hiddenBound k) = held k

/-- Two results are the same, on stores side by side. -/
inductive Tracked (n : Nat) (held : Nat → Option Value) {α : Type} :
    EStateM.Result RunError Store α → EStateM.Result RunError Store α → Prop where
  | ok {a : α} {σ τ : Store} : Tracks n held σ τ → Tracked n held (.ok a σ) (.ok a τ)
  | error {error : RunError} {σ τ : Store} :
      Tracks n held σ τ → Tracked n held (.error error σ) (.error error τ)

/-- Two computations have the same results wherever they start side by side. -/
def Parallel (n : Nat) (held : Nat → Option Value) {α : Type} (p q : Eval α) : Prop :=
  ∀ σ τ, Tracks n held σ τ → Tracked n held (p σ) (q τ)

namespace Parallel

variable {n : Nat} {held : Nat → Option Value} {α β : Type}

/-- When the first computation has a value, the second has it too. -/
theorem ok {p q : Eval α} (h : Parallel n held p q) {σ σ' τ : Store} {a : α}
    (hστ : Tracks n held σ τ) (hp : p σ = .ok a σ') :
    ∃ τ', q τ = .ok a τ' ∧ Tracks n held σ' τ' := by
  have hpq := h σ τ hστ
  rw [hp] at hpq
  generalize hq : q τ = r at hpq
  cases hpq with
  | ok hnext => exact ⟨_, rfl, hnext⟩

/-- When the first computation ends in an error, so does the second. -/
theorem error {p q : Eval α} (h : Parallel n held p q) {σ σ' τ : Store} {error : RunError}
    (hστ : Tracks n held σ τ) (hp : p σ = .error error σ') :
    ∃ τ', q τ = .error error τ' ∧ Tracks n held σ' τ' := by
  have hpq := h σ τ hστ
  rw [hp] at hpq
  generalize hq : q τ = r at hpq
  cases hpq with
  | error hnext => exact ⟨_, rfl, hnext⟩

protected theorem pure (a : α) : Parallel n held (pure a) (pure a) :=
  fun _ _ h => .ok h

protected theorem bind {p q : Eval α} {f g : α → Eval β} (h : Parallel n held p q)
    (hf : ∀ a, Parallel n held (f a) (g a)) : Parallel n held (p >>= f) (q >>= g) := by
  intro σ τ hστ
  have hpq := h σ τ hστ
  simp only [bind, EStateM.bind]
  generalize p σ = r at hpq ⊢
  generalize q τ = s at hpq ⊢
  cases hpq with
  | ok hnext => exact hf _ _ _ hnext
  | error hnext => exact .error hnext

theorem lift (e : Except RunError α) : Parallel n held (Eval.lift e) (Eval.lift e) := by
  intro σ τ hστ
  cases e with
  | ok a => exact .ok hστ
  | error error => exact .error hστ

theorem onConsole (f : Console → Except RunError α × Console) :
    Parallel n held (Eval.onConsole f) (Eval.onConsole f) := by
  intro σ τ hστ
  unfold Eval.onConsole
  rw [← hστ.agrees.console]
  have hnext (c : Console) : Tracks n held { σ with console := c } { τ with console := c } :=
    ⟨⟨rfl, hστ.agrees.visible⟩, hστ.held⟩
  obtain ⟨result, c⟩ := f σ.console
  cases result with
  | ok a => exact .ok (hnext c)
  | error error => exact .error (hnext c)

theorem read {x : Variable} (h : x.Visible) :
    Parallel n held (readVariable x) (readVariable x) := by
  intro σ τ hστ
  have hread : σ.bindings.read x = τ.bindings.read x := by
    unfold Bindings.read
    rw [hστ.agrees.visible x h]
  unfold readVariable
  rw [hread]
  exact .ok hστ

theorem write {x : Variable} (h : x.Visible) (v : Value) :
    Parallel n held (writeVariable x v) (writeVariable x v) := by
  intro σ τ hστ
  refine .ok ⟨⟨hστ.agrees.console, fun y hy => ?_⟩, fun k hk => ?_⟩
  · simp only [Bindings.find?_set, hστ.agrees.visible y hy]
  · rw [Bindings.find?_set, if_neg (not_same_hiddenBound h k)]
    exact hστ.held k hk

end Parallel

/-! ### Expressions -/

section

variable {n : Nat} {held : Nat → Option Value}

mutual

/-- Hidden variables make no difference to an expression that does not mention them. -/
theorem parallel_eval : (e : Expr) → e.Visible → Parallel n held e.eval e.eval
  | .error, _ => by
    rw [Expr.eval]
    exact .lift _
  | .literal v, _ => .pure v
  | .read x, h => .read (h x (by simp [Code.exprVariables]))
  | .assign x value, h => by
    rw [Expr.eval]
    obtain ⟨hvalue, hx⟩ := List.forall_mem_append.1 h
    apply Parallel.bind (parallel_eval value hvalue)
    intro v
    exact .bind (.write (hx x (by simp)) v) fun _ => .pure v
  | .unary op operand, h => by
    rw [Expr.eval]
    exact .bind (parallel_eval operand h) fun _ => .lift _
  | .binary left op right, h => by
    rw [Expr.eval]
    obtain ⟨hleft, hright⟩ := List.forall_mem_append.1 h
    apply Parallel.bind (parallel_eval left hleft)
    intro x
    exact .bind (parallel_eval right hright) fun _ => .lift _
  | .call f args, h => by
    rw [Expr.eval]
    apply Parallel.bind (.lift _)
    intro r
    exact .bind (parallel_evalAll args h) fun _ => .onConsole _
  | .convert target e, h => by
    rw [Expr.eval]
    apply Parallel.bind (.lift _)
    intro r
    exact .bind (parallel_eval e h) fun _ => .onConsole _

theorem parallel_evalAll : (es : List Expr) → (∀ x ∈ Code.exprsVariables es, x.Visible) →
    Parallel n held (Expr.evalAll es) (Expr.evalAll es)
  | [], _ => .pure []
  | e :: es, h => by
    rw [Expr.evalAll]
    obtain ⟨he, hes⟩ := List.forall_mem_append.1 h
    apply Parallel.bind (parallel_eval e he)
    intro v
    exact .bind (parallel_evalAll es hes) fun vs => .pure (v :: vs)

end

/-! ### The computations in a statement -/

theorem parallel_assignFrom {x : Variable} {init : Expr} (hx : x.Visible) (h : init.Visible) :
    Parallel n held (assignFrom x init) (assignFrom x init) := by
  apply Parallel.bind (parallel_eval init h)
  intro v
  exact .bind (.write hx v) fun _ => .pure v

theorem parallel_test {condition : Expr} (h : condition.Visible) :
    Parallel n held (test condition) (test condition) :=
  .bind (parallel_eval condition h) fun _ => .lift _

/-- Comparing with a bound is comparing with the hidden variable that holds it. -/
theorem parallel_atMost {x : Variable} (hx : x.Visible) {k : Nat} (hk : k ≤ n) {bound : Value}
    (hheld : held k = some bound) :
    Parallel n held (atMost x bound) (test (withinBound x (hiddenBound k))) := by
  intro σ τ hστ
  have hread : σ.bindings.read x = τ.bindings.read x := by
    unfold Bindings.read
    rw [hστ.agrees.visible x hx]
  have hbound : τ.bindings.read (hiddenBound k) = bound := by
    unfold Bindings.read
    rw [hστ.held k hk, hheld]
    rfl
  simp only [atMost, test, withinBound, Expr.eval, readVariable, bind, EStateM.bind, hread, hbound,
    applyBinary, BinaryOperator.intLessOrEquals, BinaryOperator.row, onInts]
  cases hn : needInt (τ.bindings.read x) with
  | error error => exact .error hστ
  | ok m =>
    cases hm : needInt bound with
    | error error => exact .error hστ
    | ok m => exact .ok hστ

/-- Stepping a variable up is what its increment evaluates to. -/
theorem stepUp_eq_eval_increment (x : Variable) : stepUp x = (increment x).eval := by
  funext σ
  simp only [stepUp, increment, Expr.eval, readVariable, bind, EStateM.bind, pure, EStateM.pure,
    applyBinary, BinaryOperator.intAddition, BinaryOperator.row, onInts]
  cases hn : needInt (σ.bindings.read x) with
  | error error => rfl
  | ok m => rfl

theorem parallel_stepUp {x : Variable} (hx : x.Visible) :
    Parallel n held (stepUp x) (increment x).eval := by
  rw [← stepUp_eq_eval_increment]
  apply Parallel.bind (.read hx)
  intro v
  apply Parallel.bind (.lift _)
  intro m
  exact .bind (.write hx _) fun _ => .pure _

end

end SnippetLang.Typed
