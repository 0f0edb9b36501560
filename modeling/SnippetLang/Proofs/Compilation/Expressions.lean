import SnippetLang.Proofs.Compilation.Operations
import SnippetLang.Proofs.Safety.Evaluation

/-!
# The code of expressions

The code of a well-typed expression computes what the evaluation of the expression does, wherever it
stands in a method, whatever is on the stack below, and whatever is kept in the slots of no variable
of the expression.
-/

namespace SnippetLang.Code

open Typed

/-! ### Slots as variables -/

section

variable {C : Setting} {i slot : Nat} {stack : List Cell} {σ : Store} {x : Variable}

/-- Loading the slot of a variable reads the variable. -/
theorem computes_loadLocal (hσ : σ.Typed) (hx : C.Keeps x slot) {v : Value}
    (hv : σ.bindings.read x = v) (h : C.method.instructions[i]? = some (.loadLocal slot)) :
    Computes C (fun v => .ofValue v :: stack) 1 i stack σ (.ok v σ) := by
  subst hv
  exact .instr hσ h (execute_loadLocal (hx.read σ.bindings))

/-- Storing into the slot of a variable sets the variable. -/
theorem computes_storeLocal (hσ : σ.Typed) (hx : C.Keeps x slot) (v : Value)
    (h : C.method.instructions[i]? = some (.storeLocal slot)) :
    Computes C (fun _ : Unit => stack) 1 i (.ofValue v :: stack) σ (writeVariable x v σ) := by
  have hlength : slot < (C.locals σ.bindings).length :=
    (List.getElem?_eq_some_iff.1 (hx.read σ.bindings)).1
  refine .instr hσ h ?_
  rw [execute_storeLocal hlength rfl]
  simp only [Setting.machine, hx.write]

end

/-! ### Expressions -/

theorem bind_eq_ok {ε α β : Type} {x : Except ε α} {f : α → Except ε β} {b : β}
    (h : (x >>= f) = .ok b) : ∃ a, x = .ok a ∧ f a = .ok b := by
  cases x with
  | ok a => exact ⟨a, rfl, h⟩
  | error e => cases h

section

variable {C : Setting} {f : Frame}

/-- A value of a type with a name is left on the stack. -/
theorem Computes.named {n i : Nat} {stack : List Cell} {σ : Store} {t : Ty}
    {r : EStateM.Result RunError Store Value} (h : Computes C (pushed · stack) n i stack σ r)
    (hr : EndsSafely False (·.ty = t) r) (ht : t.Named) :
    Computes C (fun v => .ofValue v :: stack) n i stack σ r :=
  h.congr fun _ _ hok => pushed_of_named ((hr.of_ok hok).1 ▸ ht) stack

theorem Computes.pushes {n i : Nat} {stack stack' : List Cell} {σ : Store} {t : Ty}
    {r : EStateM.Result RunError Store Value}
    (h : Computes C (fun v => .ofValue v :: stack) n i stack' σ r)
    (hr : EndsSafely False (·.ty = t) r) (ht : t.Named) :
    Computes C (pushed · stack) n i stack' σ r :=
  h.congr fun _ _ hok => (pushed_of_named ((hr.of_ok hok).1 ▸ ht) stack).symm

theorem unary_named : ∀ row ∈ UnaryOperator.table, row.operand.Named ∧ row.result.Named := by
  decide

theorem binary_named :
    ∀ row ∈ BinaryOperator.table, row.left.Named ∧ row.right.Named ∧ row.result.Named := by
  decide

theorem computes_literal {v : Value} (hv : v.ty.Named) {code : List Instr}
    (hcode : exprCode f (.literal v) = .ok code) {i : Nat} {stack : List Cell} {σ : Store}
    (hp : Placed C.method.instructions i code) (hσ : σ.Typed) :
    Computes C (pushed · stack) code.length i stack σ (.ok v σ) := by
  have hpushed := pushed_of_named hv stack
  cases v with
  | void => exact absurd rfl hv.ne_void
  | bool b =>
    cases hcode
    exact .instr hσ hp.head rfl
  | int n =>
    cases hcode
    exact .instr hσ hp.head rfl
  | string s =>
    cases hcode
    exact .instr hσ hp.head rfl

mutual

/-- The code of a well-typed expression computes the value of the expression onto the stack. -/
theorem computes_eval : (e : Expr) → e.WellTyped → C.KeepsAll f (exprVariables e) →
    ∀ {code : List Instr}, exprCode f e = .ok code →
    ∀ {i : Nat} {stack : List Cell} {σ : Store}, Placed C.method.instructions i code → σ.Typed →
    Computes C (pushed · stack) code.length i stack σ (e.eval σ)
  | .error, h, _, _, _, _, _, _, _, _ => nomatch h
  | .literal v, .literal hv, _, _, hcode, _, _, _, hp, hσ => computes_literal hv hcode hp hσ
  | .read x, .read hx, hkeeps, _, hcode, _, _, _, hp, hσ => by
    obtain ⟨slot, hslot, hcode⟩ := bind_eq_ok hcode
    cases hcode
    have hk := hkeeps x (List.mem_singleton_self x) slot hslot
    exact (computes_loadLocal hσ hk rfl hp.head).pushes (eval_safe _ (.read hx) hσ) hx
  | .assign x value, .assign hx hty hvalue, hkeeps, _, hcode, i, stack, σ, hp, hσ => by
    obtain ⟨first, hfirst, hcode⟩ := bind_eq_ok hcode
    obtain ⟨slot, hslot, hcode⟩ := bind_eq_ok hcode
    cases hcode
    obtain ⟨hkeeps, hown⟩ := List.forall_mem_append.1 hkeeps
    have hk := hown x (List.mem_singleton_self x) slot hslot
    have hsafe := eval_safe value hvalue hσ
    rw [List.length_append]
    refine Computes.bind ((computes_eval value hvalue hkeeps hfirst hp.left hσ).named hsafe
      (hty ▸ hx)) fun v τ hv => ?_
    obtain ⟨hvty, hτ⟩ := hsafe.of_ok hv
    have hset : Store.Typed { τ with bindings := τ.bindings.set x v } :=
      ⟨hτ.bindings.set (hvty.trans hty), hτ.console⟩
    have hread : (τ.bindings.set x v).read x = v := by
      rw [Bindings.read_set, if_pos (Variable.same_self x)]
    refine Computes.pushes ?_ (.ok hvty hset) (hty ▸ hx)
    exact (computes_storeLocal hτ hk v hp.right.head).append
      (computes_loadLocal hset hk hread hp.right.tail.head)
  | .unary row operand, .unary hrow hty hoperand, hkeeps, _, hcode, i, stack, σ, hp, hσ => by
    obtain ⟨code, hcode', hcode⟩ := bind_eq_ok hcode
    cases hcode
    have hsafe := eval_safe operand hoperand hσ
    obtain ⟨hnamed, hnamed'⟩ := unary_named row hrow
    rw [List.length_append]
    refine Computes.bind ((computes_eval operand hoperand hkeeps hcode' hp.left hσ).named hsafe
      (hty ▸ hnamed)) fun v τ hv => ?_
    obtain ⟨hvty, hτ⟩ := hsafe.of_ok hv
    exact (computes_unary hτ hrow (hvty.trans hty) hp.right).pushes
      (applyUnary_safe hτ hrow (hvty.trans hty)) hnamed'
  | .binary left row right, .binary hrow hl hr hleft hright, hkeeps, _, hcode, i, stack, σ, hp, hσ => by
    obtain ⟨first, hfirst, hcode⟩ := bind_eq_ok hcode
    obtain ⟨second, hsecond, hcode⟩ := bind_eq_ok hcode
    cases hcode
    obtain ⟨hkeeps, hkeeps'⟩ := List.forall_mem_append.1 hkeeps
    have hsafe := eval_safe left hleft hσ
    obtain ⟨hlnamed, hrnamed, hnamed⟩ := binary_named row hrow
    have hp' : Placed C.method.instructions i (first ++ (second ++ binaryCode row.kind)) := by
      rwa [← List.append_assoc]
    rw [List.append_assoc, List.length_append, List.length_append]
    refine Computes.bind ((computes_eval left hleft hkeeps hfirst hp'.left hσ).named hsafe
      (hl ▸ hlnamed)) fun v τ hv => ?_
    obtain ⟨hvty, hτ⟩ := hsafe.of_ok hv
    have hsafe' := eval_safe right hright hτ
    refine Computes.bind ((computes_eval right hright hkeeps' hsecond hp'.right.left hτ).named hsafe'
      (hr ▸ hrnamed)) fun w υ hw => ?_
    obtain ⟨hwty, hυ⟩ := hsafe'.of_ok hw
    exact (computes_binary hυ hrow (hvty.trans hl) (hwty.trans hr) hp'.right.right).pushes
      (applyBinary_safe hυ hrow (hvty.trans hl) (hwty.trans hr)) hnamed
  | .call g args, .call hg hty hargs, hkeeps, _, hcode, i, stack, σ, hp, hσ => by
    obtain ⟨r, hr, hparameters, hresult⟩ := Routine.ofFunction_of_mem hg
    obtain ⟨r', hr', hcode⟩ := bind_eq_ok hcode
    obtain rfl := Except.ok.inj (hr'.symm.trans hr)
    obtain ⟨code, hcode', hcode⟩ := bind_eq_ok hcode
    cases hcode
    have htys : args.map (·.ty) = r'.parameters := hty.trans hparameters.symm
    have hnamed : ∀ arg ∈ args, arg.WellTyped ∧ arg.ty.Named := fun arg harg =>
      ⟨hargs arg harg, r'.parameters_named _ (htys ▸ List.mem_map_of_mem harg)⟩
    rw [List.length_append]
    simp only [Expr.eval, hr]
    show Computes C (pushed · stack) _ i stack σ
      ((Expr.evalAll args >>= fun vs => Eval.onConsole (r'.invoke vs)) σ)
    refine Computes.bind (computes_evalAll args hnamed hkeeps hcode' hp.left hσ) fun vs τ hvs => ?_
    obtain ⟨hvsty, hτ⟩ := (evalAll_safe args hargs hσ).of_ok hvs
    exact computes_call hτ (hvsty.trans htys) hp.right.head
  | .convert target e, .convert hc he, hkeeps, _, hcode, i, stack, σ, hp, hσ => by
    obtain ⟨r, hr, hparameters, -⟩ := Routine.ofConversion_of_converts hc
    obtain ⟨r', hr', hcode⟩ := bind_eq_ok hcode
    obtain rfl := Except.ok.inj (hr'.symm.trans hr)
    obtain ⟨code, hcode', hcode⟩ := bind_eq_ok hcode
    cases hcode
    have hsafe := eval_safe e he hσ
    have hnamed : e.ty.Named :=
      r'.parameters_named _ (hparameters ▸ List.mem_singleton_self e.ty)
    rw [List.length_append]
    simp only [Expr.eval, hr]
    show Computes C (pushed · stack) _ i stack σ
      ((e.eval >>= fun v => Eval.onConsole (r'.invoke [v])) σ)
    refine Computes.bind ((computes_eval e he hkeeps hcode' hp.left hσ).named hsafe hnamed)
      fun v τ hv => ?_
    obtain ⟨hvty, hτ⟩ := hsafe.of_ok hv
    have hargs : [v].map (·.ty) = r'.parameters := by simp [hvty, hparameters]
    exact computes_call hτ hargs hp.right.head

theorem computes_evalAll : (es : List Expr) → (∀ e ∈ es, e.WellTyped ∧ e.ty.Named) →
    C.KeepsAll f (exprsVariables es) → ∀ {code : List Instr}, exprsCode f es = .ok code →
    ∀ {i : Nat} {stack : List Cell} {σ : Store}, Placed C.method.instructions i code → σ.Typed →
    Computes C (fun vs => (vs.map .ofValue).reverse ++ stack) code.length i stack σ
      (Expr.evalAll es σ)
  | [], _, _, _, hcode, _, _, _, _, _ => by
    cases hcode
    exact .ok .refl
  | e :: es, h, hkeeps, _, hcode, i, stack, σ, hp, hσ => by
    obtain ⟨first, hfirst, hcode⟩ := bind_eq_ok hcode
    obtain ⟨second, hsecond, hcode⟩ := bind_eq_ok hcode
    cases hcode
    obtain ⟨⟨he, hnamed⟩, hes⟩ := List.forall_mem_cons.1 h
    obtain ⟨hkeeps, hkeeps'⟩ := List.forall_mem_append.1 hkeeps
    have hsafe := eval_safe e he hσ
    rw [List.length_append]
    refine Computes.bind ((computes_eval e he hkeeps hfirst hp.left hσ).named hsafe hnamed)
      fun v τ hv => ?_
    obtain ⟨-, hτ⟩ := hsafe.of_ok hv
    exact (computes_evalAll es hes hkeeps' hsecond hp.right hτ).map (v :: ·) fun vs => by simp

end

end

end SnippetLang.Code
