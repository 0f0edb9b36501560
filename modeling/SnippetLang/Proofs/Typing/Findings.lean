import SnippetLang.Proofs.Spans.Nodes
import SnippetLang.Proofs.Typing.Soundness

/-!
# What elaboration finds

Each check reports a few kinds of issues, under conditions that do not depend on where the checked
expression stands.  `Finding` lists them, one constructor for each issue that is reported.  Whatever
is found in an expression is a finding about it or about an expression inside it, so a property of
issues follows for all of them from the list.
-/

namespace SnippetLang.Elaboration

open SnippetLang.Tree (Ident Node)

/-- What the checks of an expression can report in a scope. -/
inductive Finding (scope : Scope) : Tree.Expr → Issue → Prop where
  -- an expression where a value is needed, or a value of a type
  | noValue {e : Tree.Expr} : Finding scope e ⟨.valueExpected, e.span⟩
  | otherType {e : Tree.Expr} {ty target : Ty} : ty ≠ .error → target.Named →
    Finding scope e ⟨.cannotConvert ty target, e.span⟩
  | argument {e : Tree.Expr} {ty target : Ty} {parameter : String} : ty ≠ .error → target.Named →
    Finding scope e ⟨.wrongArgumentType parameter target ty, e.span⟩
  -- names and targets
  | missing {ident : Ident} : scope.lookup? ident.name = none →
    Finding scope (.name ident) ⟨.undefinedVariable ident.name, ident.span⟩
  | missingTarget {target : Ident} {value : Tree.Expr} : scope.lookup? target.name = none →
    Finding scope (.assign target value) ⟨.undefinedVariable target.name, target.span⟩
  | readOnly {target : Ident} {value : Tree.Expr} {x : Variable} :
    scope.lookup? target.name = some x → x.readOnly = true →
    Finding scope (.assign target value) ⟨.readOnlyTarget target.name, target.span⟩
  | assigned {target : Ident} {value : Tree.Expr} {x : Variable} {ty : Ty} :
    scope.lookup? target.name = some x → ty ≠ x.ty → ty ≠ .error →
    Finding scope (.assign target value) ⟨.cannotConvert ty x.ty, target.span⟩
  -- operators
  | unary {op : UnaryOp} {opSpan : Span} {operand : Tree.Expr} {ty : Ty} : ty ≠ .error →
    Finding scope (.unary op opSpan operand) ⟨.undefinedUnary op.spelling ty, opSpan⟩
  | binary {left right : Tree.Expr} {op : BinaryOp} {opSpan : Span} {l r : Ty} :
    l ≠ .error → r ≠ .error →
    Finding scope (.binary left op opSpan right) ⟨.undefinedBinary op.spelling l r, opSpan⟩
  -- functions
  | function {callee : Ident} {args : List Tree.Expr} {closing : Span} :
    Function.ofName? callee.name = none →
    Finding scope (.call callee args closing) ⟨.undefinedFunction callee.name, callee.span⟩
  | count {callee : Ident} {args : List Tree.Expr} {closing : Span} {f : Function} :
    Function.ofName? callee.name = some f → args.length ≠ f.parameters.length →
    Finding scope (.call callee args closing)
      ⟨.wrongArgumentCount f.name f.parameters.length args.length, callee.span.merge closing⟩

/-- Issues are findings about expressions in a node. -/
def Finds (scope : Scope) (n : Node) (found : List Issue) : Prop :=
  ∀ i ∈ found, ∃ e, n.Has (.expr e) ∧ Finding scope e i

namespace Finds

variable {scope : Scope} {n c : Node} {found more : List Issue}

theorem nil : Finds scope n [] := fun _ h => absurd h List.not_mem_nil

theorem here {e : Tree.Expr} {i : Issue} (h : Finding scope e i) : Finds scope (.expr e) [i] :=
  List.forall_mem_singleton.2 ⟨e, .self _, h⟩

theorem append (h : Finds scope n found) (h' : Finds scope n more) :
    Finds scope n (found ++ more) := List.forall_mem_append.2 ⟨h, h'⟩

/-- What is found inside a node is found in it. -/
theorem child (h : Finds scope c found) (hc : c ∈ n.children) : Finds scope n found := by
  intro i hi
  obtain ⟨e, he, hfinding⟩ := h i hi
  exact ⟨e, .child hc he, hfinding⟩

end Finds

section

variable {scope : Scope} {e : Tree.Expr} {checked : Checked Typed.Expr}

theorem finds_requireValue (h : Finds scope (.expr e) checked.2) :
    Finds scope (.expr e) (requireValue e.span checked).2 := by
  unfold requireValue
  split
  · exact h.append (.here .noValue)
  · exact h

theorem finds_requireTy {target : Ty} (htarget : target.Named)
    (h : Finds scope (.expr e) checked.2) :
    Finds scope (.expr e) (requireTy target e.span checked).2 := by
  have hvalue := finds_requireValue h
  unfold requireTy
  dsimp only
  split
  · next hty => exact hvalue.append (.here (.otherType hty.2 htarget))
  · exact hvalue

theorem finds_nameUse {ident : Ident} :
    Finds scope (.expr (.name ident)) (nameUse scope ident).2 := by
  unfold nameUse
  split
  · exact .nil
  · split
    · exact .nil
    · next hnone => exact .here (.missing hnone)

theorem finds_assignment {target : Ident} {value : Tree.Expr} {elaborated : Typed.Expr} :
    Finds scope (.expr (.assign target value)) (assignment scope target elaborated).2 := by
  unfold assignment
  split
  · next hnone => exact .here (.missingTarget hnone)
  · next x hx =>
    have hreadOnly : Finds scope (.expr (.assign target value))
        (if x.readOnly then [⟨.readOnlyTarget target.name, target.span⟩] else []) := by
      split
      · next hreadOnly => exact .here (.readOnly hx hreadOnly)
      · exact .nil
    dsimp only
    split
    · next hty => exact hreadOnly.append (.here (.assigned hx hty.1 hty.2))
    · exact hreadOnly

theorem finds_unaryUse {op : UnaryOp} {opSpan : Span} {operand : Tree.Expr}
    {elaborated : Typed.Expr} :
    Finds scope (.expr (.unary op opSpan operand)) (unaryUse op opSpan elaborated).2 := by
  unfold unaryUse
  split
  · exact .nil
  · next hty =>
    split
    · exact .nil
    · exact .here (.unary hty)

theorem finds_binaryUse {left right : Tree.Expr} {op : BinaryOp} {opSpan : Span}
    {first second : Typed.Expr} :
    Finds scope (.expr (.binary left op opSpan right)) (binaryUse op opSpan first second).2 := by
  unfold binaryUse
  split
  · exact .nil
  · next hty =>
    obtain ⟨hfirst, hsecond⟩ := not_or.1 hty
    split
    · exact .nil
    · exact .here (.binary hfirst hsecond)

theorem finds_conversion {target : Ty} (htarget : target.Named) {elaborated : Typed.Expr} :
    Finds scope (.expr e) (conversion target e.span elaborated).2 := by
  unfold conversion
  split
  · exact .nil
  · next hty =>
    split
    · exact .here (.otherType hty htarget)
    · split <;> exact .nil

theorem length_exprs (es : List Tree.Expr) : (exprs scope es).length = es.length := by
  induction es with
  | nil => rfl
  | cons e es ih => simp [exprs, ih]

/-- What is found in the arguments of a call is found in the call. -/
theorem finds_arguments {parameters : List Parameter} (hparameters : ∀ p ∈ parameters, p.ty.Named)
    {es : List Tree.Expr} {n : Node} (hes : ∀ e ∈ es, Node.expr e ∈ n.children)
    (h : ∀ e ∈ es, Finds scope (.expr e) (expr scope e).2) :
    Finds scope n (arguments parameters (exprs scope es)).2 := by
  induction es generalizing parameters with
  | nil => cases parameters <;> exact .nil
  | cons e es ih =>
    obtain ⟨he, hes⟩ := List.forall_mem_cons.1 hes
    obtain ⟨hfirst, hothers⟩ := List.forall_mem_cons.1 h
    have hvalue : Finds scope (.expr e) (Argument.value ⟨e.span, expr scope e⟩).2 :=
      finds_requireValue hfirst
    cases parameters with
    | nil => exact .nil
    | cons parameter parameters =>
      obtain ⟨hparameter, hparameters⟩ := List.forall_mem_cons.1 hparameters
      rw [exprs, arguments]
      dsimp only
      split
      · exact hvalue.child he
      · next hty =>
        split
        · exact (hvalue.append (.here (.argument hty hparameter))).child he
        · exact (hvalue.child he).append (ih hparameters hes hothers)

theorem finds_callUse {callee : Ident} {closing : Span} {es : List Tree.Expr}
    (h : ∀ e ∈ es, Finds scope (.expr e) (expr scope e).2) :
    Finds scope (.expr (.call callee es closing))
      (callUse callee (callee.span.merge closing) (exprs scope es)).2 := by
  have hes : ∀ e ∈ es, Node.expr e ∈ (Node.expr (.call callee es closing)).children := by
    intro e he
    simp [he]
  unfold callUse
  split
  · next target arg htarget harg =>
    have hnamed := (Ty.ofName?_eq_some_iff.1 htarget).1
    cases es with
    | nil => cases harg
    | cons e rest =>
      obtain ⟨rfl, -⟩ := List.cons.inj harg
      have hvalue := finds_requireValue (h e (List.mem_cons_self ..))
      exact (hvalue.append (finds_conversion hnamed)).child (hes e (List.mem_cons_self ..))
  · unfold functionUse
    split
    · next hnone => exact .here (.function hnone)
    · next f hf =>
      obtain ⟨hmem, -⟩ := Typing.function_ofName? hf
      have hfound := finds_arguments (fun p hp => Typing.named_of_mem_parameters hmem hp) hes h
      split
      · split
        · next heq => rwa [heq] at hfound
        · next heq => rwa [heq] at hfound
      · next hlength =>
        rw [length_exprs] at hlength ⊢
        exact .here (.count hf hlength)

end

mutual

/-- Whatever is found in an expression is a finding about it or about one inside it. -/
theorem finds_expr (scope : Scope) : (e : Tree.Expr) → Finds scope (.expr e) (expr scope e).2
  | .error _ => .nil
  | .int _ _ => .nil
  | .bool _ _ => .nil
  | .string _ _ => .nil
  | .name _ => finds_nameUse
  | .assign _ value => by
    rw [expr]
    exact ((finds_requireValue (finds_expr scope value)).child (by simp)).append finds_assignment
  | .unary _ _ operand => by
    rw [expr]
    exact ((finds_requireValue (finds_expr scope operand)).child (by simp)).append finds_unaryUse
  | .binary left _ _ right => by
    rw [expr]
    exact (((finds_requireValue (finds_expr scope left)).child (by simp)).append
      ((finds_requireValue (finds_expr scope right)).child (by simp))).append finds_binaryUse
  | .paren _ inner _ => (finds_expr scope inner).child (by simp)
  | .call _ args _ => finds_callUse (finds_exprs scope args)

theorem finds_exprs (scope : Scope) : (es : List Tree.Expr) →
    ∀ e ∈ es, Finds scope (.expr e) (expr scope e).2
  | [] => nofun
  | e :: es => List.forall_mem_cons.2 ⟨finds_expr scope e, finds_exprs scope es⟩

end

theorem finds_value (scope : Scope) (e : Tree.Expr) : Finds scope (.expr e) (value scope e).2 :=
  finds_requireValue (finds_expr scope e)

theorem finds_valueOf {target : Ty} (htarget : target.Named) (scope : Scope) (e : Tree.Expr) :
    Finds scope (.expr e) (valueOf target scope e).2 :=
  finds_requireTy htarget (finds_expr scope e)

end SnippetLang.Elaboration
