import SnippetLang.Proofs.Scoping.Mirror

/-!
# Evaluation beside scopes

An expression has the same value, or ends in the same error, whether its variables are looked up in
scopes or in bindings that mirror them.
-/

namespace SnippetLang.Lexical

open Typed
open Typing (Context Sees)

/-! ### Ends that look the same -/

/-- The same value on related memories and stores, or the same error on the same console. -/
inductive Beside (related : Memory → Store → Prop) {α : Type} :
    Answer α → EStateM.Result RunError Store α → Prop where
  | ok {v : α} {m : Memory} {σ : Store} : related m σ → Beside related (.ok v, m) (.ok v σ)
  | error {error : RunError} {m : Memory} {σ : Store} :
      m.console = σ.console → Beside related (.error error, m) (.error error σ)

theorem Beside.mono {related related' : Memory → Store → Prop} {α : Type}
    {a : Answer α} {r : EStateM.Result RunError Store α}
    (h : Beside related a r) (himp : ∀ m σ, related m σ → related' m σ) : Beside related' a r := by
  cases h with
  | ok hm => exact .ok (himp _ _ hm)
  | error hconsole => exact .error hconsole

/-- Two computations end alike wherever they start on a memory that mirrors a store. -/
def Lockstep (used : List Variable) (Γ : Context) {α : Type} (p : Run α) (q : Eval α) : Prop :=
  ∀ m σ, Mirrors used Γ m σ → ∃ a, p m = some a ∧ Beside (Mirrors used Γ) a (q σ)

namespace Lockstep

variable {used : List Variable} {Γ : Context} {α β : Type} {p : Run α} {q : Eval α} {m : Memory}
  {σ : Store}

/-- Both computations have a value, or both end in an error. -/
theorem split (h : Lockstep used Γ p q) (hm : Mirrors used Γ m σ) :
    (∃ v m' σ', p m = some (.ok v, m') ∧ q σ = .ok v σ' ∧ Mirrors used Γ m' σ') ∨
      ∃ error m' σ', p m = some (.error error, m') ∧ q σ = .error error σ' ∧
        m'.console = σ'.console := by
  obtain ⟨a, ha, hbeside⟩ := h m σ hm
  generalize hq : q σ = r at hbeside
  cases hbeside with
  | ok hm' => exact .inl ⟨_, _, _, ha, rfl, hm'⟩
  | error hconsole => exact .inr ⟨_, _, _, ha, rfl, hconsole⟩

theorem of_ok (h : Lockstep used Γ p q) (hm : Mirrors used Γ m σ) {v : α} {σ' : Store}
    (hq : q σ = .ok v σ') : ∃ m', p m = some (.ok v, m') ∧ Mirrors used Γ m' σ' := by
  rcases h.split hm with ⟨_, m', _, hp, hq', hm'⟩ | ⟨_, _, _, _, hq', _⟩
  · cases hq.symm.trans hq'
    exact ⟨m', hp, hm'⟩
  · cases hq.symm.trans hq'

theorem of_error (h : Lockstep used Γ p q) (hm : Mirrors used Γ m σ) {error : RunError}
    {σ' : Store} (hq : q σ = .error error σ') :
    ∃ m', p m = some (.error error, m') ∧ m'.console = σ'.console := by
  rcases h.split hm with ⟨_, _, _, _, hq', _⟩ | ⟨_, m', _, hp, hq', hconsole⟩
  · cases hq.symm.trans hq'
  · cases hq.symm.trans hq'
    exact ⟨m', hp, hconsole⟩

protected theorem pure (v : α) : Lockstep used Γ (pure v) (pure v) :=
  fun _ _ hm => ⟨_, rfl, .ok hm⟩

protected theorem bind {f : α → Run β} {g : α → Eval β} (h : Lockstep used Γ p q)
    (hf : ∀ v, Lockstep used Γ (f v) (g v)) : Lockstep used Γ (p >>= f) (q >>= g) := by
  intro m σ hm
  simp only [bind, EStateM.bind]
  rcases h.split hm with ⟨v, m', σ', hp, hq, hm'⟩ | ⟨error, m', σ', hp, hq, hconsole⟩
  · rw [hq]
    obtain ⟨a, ha, hbeside⟩ := hf v m' σ' hm'
    exact ⟨a, (Run.bind_of_ok hp).trans ha, hbeside⟩
  · rw [hq]
    exact ⟨_, Run.bind_of_error hp, .error hconsole⟩

theorem lift (e : Except RunError α) : Lockstep used Γ (Run.lift e) (Eval.lift e) := by
  intro m σ hm
  refine ⟨_, rfl, ?_⟩
  cases e with
  | ok v => exact .ok hm
  | error error => exact .error hm.console

theorem onConsole (f : Console → Except RunError α × Console) :
    Lockstep used Γ (Run.onConsole f) (Eval.onConsole f) := by
  intro m σ hm
  refine ⟨_, rfl, ?_⟩
  unfold Eval.onConsole
  rw [hm.console]
  obtain ⟨result, c⟩ := f σ.console
  cases result with
  | ok v => exact .ok (hm.withConsole c)
  | error error => exact .error rfl

theorem read {x : Variable} (hx : Sees Γ x.name x) :
    Lockstep used Γ (readVariable Γ x) (Typed.readVariable x) := by
  intro m σ hm
  refine ⟨_, rfl, ?_⟩
  rw [fetch_eq hm.scopes hx]
  exact .ok hm

theorem write (hΓ : Known used Γ) {x : Variable} (hx : Sees Γ x.name x) (v : Value) :
    Lockstep used Γ (writeVariable Γ x v) (Typed.writeVariable x v) :=
  fun _ _ hm => ⟨_, rfl, .ok (hm.write hΓ hx v)⟩

end Lockstep

/-! ### Expressions -/

section

variable {used : List Variable} {Γ : Context}

mutual

/-- An expression in scope is evaluated alike. -/
theorem lockstep_eval (hΓ : Known used Γ) : (e : Expr) → e.InScope Γ →
    Lockstep used Γ (eval Γ e) e.eval
  | .error, _ => by
    rw [eval, Expr.eval]
    exact .lift _
  | .literal v, _ => by
    rw [eval, Expr.eval]
    exact .pure v
  | .read x, h => by
    rw [eval, Expr.eval]
    exact .read (h x (List.mem_singleton_self x))
  | .assign x value, h => by
    rw [eval, Expr.eval]
    obtain ⟨hvalue, hx⟩ := List.forall_mem_append.1 h
    apply Lockstep.bind (lockstep_eval hΓ value hvalue)
    intro v
    exact .bind (.write hΓ (hx x (List.mem_singleton_self x)) v) fun _ => .pure v
  | .unary op operand, h => by
    rw [eval, Expr.eval]
    exact .bind (lockstep_eval hΓ operand h) fun _ => .lift _
  | .binary left op right, h => by
    rw [eval, Expr.eval]
    obtain ⟨hleft, hright⟩ := List.forall_mem_append.1 h
    apply Lockstep.bind (lockstep_eval hΓ left hleft)
    intro x
    exact .bind (lockstep_eval hΓ right hright) fun _ => .lift _
  | .call f args, h => by
    rw [eval, Expr.eval]
    apply Lockstep.bind (.lift _)
    intro r
    exact .bind (lockstep_evalAll hΓ args h) fun _ => .onConsole _
  | .convert target e, h => by
    rw [eval, Expr.eval]
    apply Lockstep.bind (.lift _)
    intro r
    exact .bind (lockstep_eval hΓ e h) fun _ => .onConsole _

theorem lockstep_evalAll (hΓ : Known used Γ) : (es : List Expr) →
    (∀ x ∈ Code.exprsVariables es, Sees Γ x.name x) →
    Lockstep used Γ (evalAll Γ es) (Expr.evalAll es)
  | [], _ => by
    rw [evalAll, Expr.evalAll]
    exact .pure []
  | e :: es, h => by
    rw [evalAll, Expr.evalAll]
    obtain ⟨he, hes⟩ := List.forall_mem_append.1 h
    apply Lockstep.bind (lockstep_eval hΓ e he)
    intro v
    exact .bind (lockstep_evalAll hΓ es hes) fun vs => .pure (v :: vs)

end

theorem lockstep_test (hΓ : Known used Γ) {condition : Expr} (h : condition.InScope Γ) :
    Lockstep used Γ (test Γ condition) (Typed.test condition) :=
  .bind (lockstep_eval hΓ condition h) fun _ => .lift _

theorem lockstep_atMost {x : Variable} (hx : Sees Γ x.name x) (bound : Value) :
    Lockstep used Γ (atMost Γ x bound) (Typed.atMost x bound) := by
  apply Lockstep.bind (.read hx)
  intro v
  apply Lockstep.bind (.lift _)
  intro n
  exact .bind (.lift _) fun _ => .pure _

theorem lockstep_stepUp (hΓ : Known used Γ) {x : Variable} (hx : Sees Γ x.name x) :
    Lockstep used Γ (stepUp Γ x) (Typed.stepUp x) := by
  apply Lockstep.bind (.read hx)
  intro v
  apply Lockstep.bind (.lift _)
  intro n
  exact .bind (.write hΓ hx _) fun _ => .pure _

end

end SnippetLang.Lexical
