import SnippetLang.Code.Emission
import SnippetLang.Proofs.Safety.Values
import SnippetLang.Proofs.Typing.Trees

/-!
# Safe evaluation

A well-typed expression that is evaluated on a sound store ends with a value of its type, or in one
of the errors that programs can cause.  `Visits` tells which other evaluations the evaluation of an
expression is made of; all of them are of well-typed expressions on sound stores.
-/

namespace SnippetLang.Typed

/-! ### Whole expressions -/

mutual

/-- A well-typed expression evaluates to a value of its type or ends in a permitted error. -/
theorem eval_safe {legible : Prop} : (e : Expr) → e.WellTyped → ∀ {σ : Store}, σ.SoundIf legible →
    EndsSafely legible (·.ty = e.ty) (e.eval σ)
  | .error, h, _, _ => nomatch h
  | .literal v, _, _, hσ => .ok rfl hσ
  | .read x, .read hx, _, hσ => .ok (hσ.bindings.read hx.ne_error) hσ
  | .assign x value, .assign _ hty hvalue, _, hσ => by
    apply (eval_safe value hvalue hσ).bind
    intro v τ hv hτ
    exact .ok hv ⟨hτ.bindings.set (hv.trans hty), hτ.console⟩
  | .unary row operand, .unary hrow hty hoperand, _, hσ => by
    apply (eval_safe operand hoperand hσ).bind
    intro v τ hv hτ
    exact applyUnary_safe hτ hrow (hv.trans hty)
  | .binary left row right, .binary hrow hl hr hleft hright, _, hσ => by
    apply (eval_safe left hleft hσ).bind
    intro v τ hv hτ
    apply (eval_safe right hright hτ).bind
    intro w υ hw hυ
    exact applyBinary_safe hυ hrow (hv.trans hl) (hw.trans hr)
  | .call f args, .call hf hty hargs, _, hσ => by
    obtain ⟨r, hr, hparameters, hresult⟩ := Routine.ofFunction_of_mem hf
    simp only [Expr.eval, hr]
    apply (evalAll_safe args hargs hσ).bind
    intro vs τ hvs hτ
    have hsafe := Routine.invoke_safe hτ (hvs.trans (hty.trans hparameters.symm))
    rwa [hresult] at hsafe
  | .convert target e, .convert hc he, _, hσ => by
    obtain ⟨r, hr, hparameters, hresult⟩ := Routine.ofConversion_of_converts hc
    simp only [Expr.eval, hr]
    apply (eval_safe e he hσ).bind
    intro v τ hv hτ
    have hargs : [v].map (·.ty) = r.parameters := by simp [hv, hparameters]
    have hsafe := Routine.invoke_safe hτ hargs
    rwa [hresult] at hsafe

theorem evalAll_safe {legible : Prop} : (es : List Expr) → (∀ e ∈ es, e.WellTyped) →
    ∀ {σ : Store}, σ.SoundIf legible → EndsSafely legible (·.map (·.ty) = es.map (·.ty)) (Expr.evalAll es σ)
  | [], _, _, hσ => .ok rfl hσ
  | e :: es, h, _, hσ => by
    apply (eval_safe e (h e (List.mem_cons_self ..)) hσ).bind
    intro v τ hv hτ
    have hrest : ∀ e' ∈ es, e'.WellTyped := by
      intro e' he'
      exact h e' (List.mem_cons_of_mem e he')
    apply (evalAll_safe es hrest hτ).bind
    intro vs υ hvs hυ
    exact .ok (by simp [hv, hvs]) hυ

end

/-! ### The evaluations inside an evaluation -/

/-- The evaluation of an expression on a store comes to an evaluation of an expression on a store:
    its own one, or that of an operand on the store that the operands before it left behind. -/
inductive Expr.Visits : Expr → Store → Expr → Store → Prop where
  | self {e : Expr} {σ : Store} : Visits e σ e σ
  | assign {x : Variable} {value e : Expr} {σ τ : Store} :
      Visits value σ e τ → Visits (.assign x value) σ e τ
  | unary {row : UnaryOperator} {operand e : Expr} {σ τ : Store} :
      Visits operand σ e τ → Visits (.unary row operand) σ e τ
  | left {left right e : Expr} {row : BinaryOperator} {σ τ : Store} :
      Visits left σ e τ → Visits (.binary left row right) σ e τ
  | right {left right e : Expr} {row : BinaryOperator} {v : Value} {σ υ τ : Store} :
      left.eval σ = .ok v υ → Visits right υ e τ → Visits (.binary left row right) σ e τ
  | argument {f : Function} {r : Routine} {before after : List Expr} {arg e : Expr}
      {vs : List Value} {σ υ τ : Store} :
      Routine.ofFunction f = .ok r → Expr.evalAll before σ = .ok vs υ → Visits arg υ e τ →
      Visits (.call f (before ++ arg :: after)) σ e τ
  | convert {target : Ty} {operand e : Expr} {r : Routine} {σ τ : Store} :
      Routine.ofConversion operand.ty target = .ok r → Visits operand σ e τ →
      Visits (.convert target operand) σ e τ

/-- Whatever the evaluation of a well-typed expression on a sound store comes to is well typed too,
    and evaluated on a sound store. -/
theorem Expr.Visits.safe {legible : Prop} {e e' : Expr} {σ τ : Store} (h : e.Visits σ e' τ)
    (he : e.WellTyped) (hσ : σ.SoundIf legible) : e'.WellTyped ∧ τ.SoundIf legible := by
  induction h with
  | self => exact ⟨he, hσ⟩
  | assign _ ih =>
    cases he with
    | assign _ _ hvalue => exact ih hvalue hσ
  | unary _ ih =>
    cases he with
    | unary _ _ hoperand => exact ih hoperand hσ
  | left _ ih =>
    cases he with
    | binary _ _ _ hleft _ => exact ih hleft hσ
  | right heval _ ih =>
    cases he with
    | binary _ _ _ hleft hright => exact ih hright ((eval_safe _ hleft hσ).of_ok heval).2
  | @argument _ _ before after arg _ _ _ _ _ _ heval _ ih =>
    cases he with
    | call _ _ hargs =>
      have hbefore : ∀ e ∈ before, e.WellTyped := by
        intro e he
        exact hargs e (List.mem_append_left _ he)
      have harg : arg.WellTyped := hargs arg (List.mem_append_right _ (List.mem_cons_self ..))
      exact ih harg ((evalAll_safe before hbefore hσ).of_ok heval).2
  | convert _ _ ih =>
    cases he with
    | convert _ hoperand => exact ih hoperand hσ

/-! ### What an evaluation leaves alone -/

/-- Variables that share no cell with those of a list read the same in two stores. -/
def SameOutside (xs : List Variable) (σ τ : Store) : Prop :=
  ∀ y : Variable, (∀ x ∈ xs, x.same y = false) → σ.bindings.read y = τ.bindings.read y

namespace SameOutside

variable {xs ys : List Variable} {σ τ υ : Store}

theorem refl (xs : List Variable) (σ : Store) : SameOutside xs σ σ := fun _ _ => rfl

theorem trans (h : SameOutside xs σ τ) (h' : SameOutside xs τ υ) : SameOutside xs σ υ :=
  fun y hy => (h y hy).trans (h' y hy)

theorem mono (h : SameOutside xs σ τ) (hsub : xs ⊆ ys) : SameOutside ys σ τ :=
  fun y hy => h y fun x hx => hy x (hsub hx)

theorem set (σ : Store) (x : Variable) (v : Value) :
    SameOutside [x] σ { σ with bindings := σ.bindings.set x v } := by
  intro y hy
  simp [Bindings.read_set, hy x (List.mem_singleton_self x)]

end SameOutside

theorem eval_bind_eq_ok {α β : Type} {p : Eval α} {f : α → Eval β} {σ τ : Store} {b : β}
    (h : (p >>= f) σ = .ok b τ) : ∃ a υ, p σ = .ok a υ ∧ f a υ = .ok b τ := by
  simp only [bind, EStateM.bind] at h
  cases hp : p σ with
  | ok a υ => exact ⟨a, υ, rfl, by rwa [hp] at h⟩
  | error e υ =>
    rw [hp] at h
    cases h

theorem lift_eq_ok {α : Type} {e : Except RunError α} {σ τ : Store} {a : α}
    (h : Eval.lift e σ = .ok a τ) : τ = σ := by
  unfold Eval.lift at h
  cases e <;> cases h
  rfl

theorem onConsole_eq_ok {α : Type} {f : Console → Except RunError α × Console} {σ τ : Store} {a : α}
    (h : Eval.onConsole f σ = .ok a τ) : τ.bindings = σ.bindings := by
  unfold Eval.onConsole at h
  generalize f σ.console = answer at h
  obtain ⟨result, c⟩ := answer
  cases result <;> cases h
  rfl

open Code (exprVariables exprsVariables)

mutual

/-- The variables that an expression assigns. -/
def Expr.assigned : Expr → List Variable
  | .error => []
  | .literal _ => []
  | .read _ => []
  | .assign x value => value.assigned ++ [x]
  | .unary _ operand => operand.assigned
  | .binary left _ right => left.assigned ++ right.assigned
  | .call _ args => Expr.assignedAll args
  | .convert _ e => e.assigned

/-- The variables that several expressions assign. -/
def Expr.assignedAll : List Expr → List Variable
  | [] => []
  | e :: es => e.assigned ++ Expr.assignedAll es

end

mutual

theorem Expr.assigned_subset : (e : Expr) → e.assigned ⊆ exprVariables e
  | .error => List.Subset.refl []
  | .literal _ => List.Subset.refl []
  | .read x => List.nil_subset [x]
  | .assign _ value => fun _ hy =>
    List.mem_append.2 ((List.mem_append.1 hy).imp_left (value.assigned_subset ·))
  | .unary _ operand => operand.assigned_subset
  | .binary left _ right => fun _ hy =>
    List.mem_append.2
      ((List.mem_append.1 hy).imp (left.assigned_subset ·) (right.assigned_subset ·))
  | .call _ args => Expr.assignedAll_subset args
  | .convert _ e => e.assigned_subset

theorem Expr.assignedAll_subset : (es : List Expr) → Expr.assignedAll es ⊆ exprsVariables es
  | [] => List.Subset.refl []
  | e :: es => fun _ hy =>
    List.mem_append.2
      ((List.mem_append.1 hy).imp (e.assigned_subset ·) (Expr.assignedAll_subset es ·))

end

mutual

/-- An expression changes the variables that it assigns only. -/
theorem eval_sameOutside_assigned : (e : Expr) → ∀ {σ τ : Store} {v : Value},
    e.eval σ = .ok v τ → SameOutside e.assigned σ τ
  | .error, _, _, _, h => nomatch h
  | .literal _, _, _, _, h => by
    cases h
    exact SameOutside.refl _ _
  | .read _, _, _, _, h => by
    cases h
    exact SameOutside.refl _ _
  | .assign x value, _, _, v, h => by
    obtain ⟨_, υ, hv, hset⟩ := eval_bind_eq_ok h
    cases hset
    have hvalue := (eval_sameOutside_assigned value hv).mono (List.subset_append_left _ [x])
    exact hvalue.trans ((SameOutside.set υ x v).mono (List.subset_append_right _ [x]))
  | .unary row operand, _, _, _, h => by
    obtain ⟨v, υ, hv, happly⟩ := eval_bind_eq_ok h
    obtain rfl := lift_eq_ok happly
    exact eval_sameOutside_assigned operand hv
  | .binary left row right, _, _, _, h => by
    obtain ⟨v, υ, hv, hsecond⟩ := eval_bind_eq_ok h
    obtain ⟨w, υ', hw, happly⟩ := eval_bind_eq_ok hsecond
    obtain rfl := lift_eq_ok happly
    have hleft := (eval_sameOutside_assigned left hv).mono
      (List.subset_append_left _ right.assigned)
    exact hleft.trans
      ((eval_sameOutside_assigned right hw).mono (List.subset_append_right _ _))
  | .call f args, _, _, _, h => by
    obtain ⟨r, υ, hr, hcall⟩ := eval_bind_eq_ok h
    obtain rfl := lift_eq_ok hr
    obtain ⟨vs, υ', hvs, hinvoke⟩ := eval_bind_eq_ok hcall
    intro y hy
    rw [evalAll_sameOutside_assigned args hvs y hy]
    unfold Bindings.read
    rw [onConsole_eq_ok hinvoke]
  | .convert target e, _, _, _, h => by
    obtain ⟨r, υ, hr, hcall⟩ := eval_bind_eq_ok h
    obtain rfl := lift_eq_ok hr
    obtain ⟨v, υ', hv, hinvoke⟩ := eval_bind_eq_ok hcall
    intro y hy
    rw [eval_sameOutside_assigned e hv y hy]
    unfold Bindings.read
    rw [onConsole_eq_ok hinvoke]

theorem evalAll_sameOutside_assigned : (es : List Expr) → ∀ {σ τ : Store} {vs : List Value},
    Expr.evalAll es σ = .ok vs τ → SameOutside (Expr.assignedAll es) σ τ
  | [], _, _, _, h => by
    cases h
    exact SameOutside.refl _ _
  | e :: es, _, _, _, h => by
    obtain ⟨v, υ, hv, hrest⟩ := eval_bind_eq_ok h
    obtain ⟨vs, υ', hvs, hcons⟩ := eval_bind_eq_ok hrest
    cases hcons
    have hfirst := (eval_sameOutside_assigned e hv).mono
      (List.subset_append_left _ (Expr.assignedAll es))
    exact hfirst.trans
      ((evalAll_sameOutside_assigned es hvs).mono (List.subset_append_right _ _))

end

/-- An expression changes its own variables only. -/
theorem eval_sameOutside {e : Expr} {σ τ : Store} {v : Value} (h : e.eval σ = .ok v τ) :
    SameOutside (exprVariables e) σ τ := (eval_sameOutside_assigned e h).mono e.assigned_subset

end SnippetLang.Typed
