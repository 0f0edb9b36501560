import SnippetLang.Proofs.Typing.Completeness

/-!
# Accepted programs are derivable

When the elaboration of a tree without gaps finds no issue, the typing rules derive the tree, and
the typed tree that was answered is the one of the derivation.  Each check of the elaborator has a
lemma here that says what it means for it to find nothing.
-/

namespace SnippetLang.Typing

open Elaboration

/-! ### Checks that found nothing -/

theorem requireValue_clean {span : Span} {checked : Checked Typed.Expr}
    (h : (requireValue span checked).2 = []) :
    checked.2 = [] ∧ checked.1.ty ≠ .void ∧ requireValue span checked = checked := by
  unfold requireValue at h ⊢
  split at h
  · simp at h
  · next hv => exact ⟨h, hv, if_neg hv⟩

theorem requireTy_clean {target : Ty} {span : Span} {checked : Checked Typed.Expr}
    (h : (requireTy target span checked).2 = []) (he : checked.1.ty ≠ .error) :
    checked.2 = [] ∧ checked.1.ty = target ∧ requireTy target span checked = checked := by
  unfold requireTy at h ⊢
  by_cases hty : (requireValue span checked).1.ty ≠ target ∧
      (requireValue span checked).1.ty ≠ .error
  · simp [hty] at h
  · simp only [if_neg hty] at h ⊢
    obtain ⟨hclean, -, heq⟩ := requireValue_clean h
    rw [heq] at hty ⊢
    exact ⟨hclean, by simpa [he] using hty, rfl⟩

theorem assignment_clean {scope : Scope} {target : Tree.Ident} {value : Typed.Expr}
    (h : (assignment scope target value).2 = []) (he : value.ty ≠ .error) :
    ∃ x, scope.lookup? target.name = some x ∧ x.readOnly = false ∧ value.ty = x.ty ∧
      assignment scope target value = (.assign x value, []) := by
  unfold assignment at h ⊢
  cases hx : scope.lookup? target.name with
  | none => simp [hx] at h
  | some x =>
    by_cases hty : value.ty = x.ty
    · by_cases hr : x.readOnly = true
      · simp [hx, hty, hr] at h
      · exact ⟨x, rfl, by simpa using hr, hty, by simp [hty, hr]⟩
    · simp [hx, hty, he] at h

theorem unaryUse_clean {op : UnaryOp} {span : Span} {operand : Typed.Expr}
    (h : (unaryUse op span operand).2 = []) (he : operand.ty ≠ .error) :
    ∃ row, UnaryOperator.resolve? op operand.ty = some row ∧
      unaryUse op span operand = (.unary row operand, []) := by
  unfold unaryUse at h ⊢
  cases hrow : UnaryOperator.resolve? op operand.ty with
  | none => simp [he, hrow] at h
  | some row => exact ⟨row, rfl, by simp [he]⟩

theorem binaryUse_clean {op : BinaryOp} {span : Span} {left right : Typed.Expr}
    (h : (binaryUse op span left right).2 = []) (hl : left.ty ≠ .error) (hr : right.ty ≠ .error) :
    ∃ row, BinaryOperator.resolve? op left.ty right.ty = some row ∧
      binaryUse op span left right = (.binary left row right, []) := by
  unfold binaryUse at h ⊢
  cases hrow : BinaryOperator.resolve? op left.ty right.ty with
  | none => simp [hl, hr, hrow] at h
  | some row => exact ⟨row, rfl, by simp [hl, hr]⟩

theorem conversion_clean {target : Ty} {span : Span} {e : Typed.Expr}
    (h : (conversion target span e).2 = []) (he : e.ty ≠ .error) :
    e.ty = target ∧ conversion target span e = (e, []) ∨
      Converts e.ty target ∧ conversion target span e = (.convert target e, []) := by
  unfold conversion at h ⊢
  by_cases hc : convertible e.ty target = true
  · rcases convertible_iff.1 hc with hsame | hconv
    · exact .inl ⟨hsame, by simp [hsame ▸ he, hsame, convertible]⟩
    · exact .inr ⟨hconv, by simp [he, hc, hconv.ne]⟩
  · simp [he, hc] at h

theorem arguments_clean {p : Parameter} {parameters : List Parameter} {a : Argument}
    {args : List Argument} (h : (arguments (p :: parameters) (a :: args)).2 = []) :
    a.value.2 = [] ∧ (a.value.1.ty ≠ .error →
      a.value.1.ty = p.ty ∧ (arguments parameters args).2 = [] ∧
      arguments (p :: parameters) (a :: args) =
        ((arguments parameters args).1.map (a.value.1 :: ·), [])) := by
  rw [arguments] at h ⊢
  by_cases he : a.value.1.ty = .error
  · simp only [he, if_true] at h ⊢
    exact ⟨h, fun hne => absurd rfl hne⟩
  by_cases hty : a.value.1.ty = p.ty
  · simp only [hty, ne_eq, not_true_eq_false, if_false] at he h ⊢
    simp only [if_neg he, List.append_eq_nil_iff] at h ⊢
    rw [h.1, h.2]
    exact ⟨rfl, fun _ => ⟨trivial, rfl, rfl⟩⟩
  · simp [he, hty] at h

theorem function_ofName? {name : String} {f : Function} (h : Function.ofName? name = some f) :
    f ∈ Function.all ∧ name = f.name := by
  have hname := List.find?_some h
  exact ⟨List.mem_of_find?_eq_some h, (beq_iff_eq.1 hname).symm⟩

/-! ### Expressions -/

/-- A derivable expression that has a value is not of the error type. -/
theorem Types.ne_error {Γ : Context} (hΓ : WellFormed Γ) {e : Tree.Expr} {e' : Typed.Expr}
    (h : Types Γ e e' e'.ty) (hv : e'.ty ≠ .void) : e'.ty ≠ .error :=
  ((h.named_or_void hΓ).resolve_right hv).ne_error

mutual

/-- The typed expression of an elaboration without issues is one that the rules derive. -/
theorem types_of_expr (scope : Scope) (hscope : WellFormed scope.levels) :
    (e : Tree.Expr) → e.Complete → (Elaboration.expr scope e).2 = [] →
    Types scope.levels e (Elaboration.expr scope e).1 (Elaboration.expr scope e).1.ty
  | .error _, hc, _ => nomatch hc
  | .int _ _, _, _ => .int
  | .bool _ _, _, _ => .bool
  | .string _ _, _, _ => .string
  | .name ident, hident, h => by
    have hne : ident.name ≠ "" := hident
    rw [Elaboration.expr, nameUse, if_neg hne] at h ⊢
    cases hx : scope.lookup? ident.name with
    | none => simp [hx] at h
    | some x => exact .name ((lookup?_eq_some_iff hscope).1 hx)
  | .assign target value, hc, h => by
    simp only [Elaboration.expr, List.append_eq_nil_iff] at h ⊢
    obtain ⟨hclean, hv, heq⟩ := requireValue_clean h.1
    have hvalue := types_of_expr scope hscope value hc.2 hclean
    rw [heq] at h ⊢
    obtain ⟨x, hx, hwritable, hty, hassign⟩ :=
      assignment_clean h.2 (hvalue.ne_error hscope hv)
    rw [hassign]
    have hvoid : x.ty ≠ .void := by rw [← hty]; exact hv
    simp only [Typed.Expr.ty, hty] at hvalue ⊢
    exact .assign ((lookup?_eq_some_iff hscope).1 hx) hwritable hvoid hvalue
  | .unary op span operand, hc, h => by
    simp only [Elaboration.expr, List.append_eq_nil_iff] at h ⊢
    obtain ⟨hclean, hv, heq⟩ := requireValue_clean h.1
    have hoperand := types_of_expr scope hscope operand hc hclean
    rw [heq] at h ⊢
    obtain ⟨row, hrow, huse⟩ := unaryUse_clean h.2 (hoperand.ne_error hscope hv)
    obtain ⟨hmem, rfl, hty⟩ := resolveUnary_eq_some_iff.1 hrow
    rw [huse]
    rw [← hty] at hoperand
    exact .unary hmem hoperand
  | .binary left op span right, hc, h => by
    simp only [Elaboration.expr, List.append_eq_nil_iff] at h ⊢
    obtain ⟨hlclean, hlv, hleq⟩ := requireValue_clean h.1.1
    obtain ⟨hrclean, hrv, hreq⟩ := requireValue_clean h.1.2
    have hleft := types_of_expr scope hscope left hc.1 hlclean
    have hright := types_of_expr scope hscope right hc.2 hrclean
    rw [hleq, hreq] at h ⊢
    obtain ⟨row, hrow, huse⟩ :=
      binaryUse_clean h.2 (hleft.ne_error hscope hlv) (hright.ne_error hscope hrv)
    obtain ⟨hmem, rfl, hlty, hrty⟩ := resolveBinary_eq_some_iff.1 hrow
    rw [huse]
    rw [← hlty] at hleft
    rw [← hrty] at hright
    exact .binary hmem hleft hright
  | .paren _ inner _, hc, h => .paren (types_of_expr scope hscope inner hc h)
  | .call callee args closing, hc, h => by
    rw [Elaboration.expr] at h ⊢
    by_cases hconv : ∃ target arg, Ty.ofName? callee.name = some target ∧ args = [arg]
    · obtain ⟨target, arg, htarget, rfl⟩ := hconv
      obtain ⟨hnamed, hname⟩ := Ty.ofName?_eq_some_iff.1 htarget
      simp only [exprs, callUse, htarget, Argument.value, List.append_eq_nil_iff] at h ⊢
      obtain ⟨hclean, hv, heq⟩ := requireValue_clean h.1
      have harg := types_of_expr scope hscope arg hc.2.1 hclean
      rw [heq] at h ⊢
      rcases conversion_clean h.2 (harg.ne_error hscope hv) with ⟨hsame, huse⟩ | ⟨hconv, huse⟩
      · rw [huse]
        rw [hsame] at harg ⊢
        exact .sameType hnamed hname harg
      · rw [huse]
        exact .convert hconv hname harg
    · have huse : callUse callee (callee.span.merge closing) (exprs scope args) =
          functionUse callee (callee.span.merge closing) (exprs scope args) := by
        unfold callUse
        split
        · next target arg htarget hargs =>
          rcases args with _ | ⟨arg, _ | ⟨other, rest⟩⟩
          · simp [exprs] at hargs
          · exact absurd ⟨target, arg, htarget, rfl⟩ hconv
          · simp [exprs] at hargs
        · rfl
      rw [huse] at h ⊢
      unfold functionUse at h ⊢
      cases hf : Function.ofName? callee.name with
      | none => simp [hf] at h
      | some f =>
        obtain ⟨hmem, hname⟩ := function_ofName? hf
        by_cases hlength : (exprs scope args).length = f.parameters.length
        · simp only [hf, hlength, if_true] at h ⊢
          have hfound : (arguments f.parameters (exprs scope args)).2 = [] := by
            split at h <;> simp_all
          obtain ⟨es, heq, hargs⟩ := typesAll_of_arguments hscope args hc.2 hlength hfound
          rw [heq]
          exact .call hmem hname hargs
        · simp [hf, hlength] at h

/-- Arguments that were accepted for parameters have the types of the parameters. -/
theorem typesAll_of_arguments {scope : Scope} (hscope : WellFormed scope.levels) :
    (args : List Tree.Expr) → Tree.Expr.AllComplete args → {parameters : List Parameter} →
    (exprs scope args).length = parameters.length →
    (arguments parameters (exprs scope args)).2 = [] →
    ∃ es, arguments parameters (exprs scope args) = (some es, []) ∧
      TypesAll scope.levels args es (parameters.map (·.ty))
  | [], _, [], _, _ => ⟨[], rfl, .nil⟩
  | [], _, _ :: _, hlength, _ => by simp [exprs] at hlength
  | _ :: _, _, [], hlength, _ => by simp [exprs] at hlength
  | arg :: args, hc, p :: parameters, hlength, h => by
    simp only [exprs, List.length_cons, Nat.add_right_cancel_iff] at hlength
    simp only [exprs] at h ⊢
    obtain ⟨hfound, hstep⟩ := arguments_clean h
    obtain ⟨hclean, hv, heq⟩ := requireValue_clean hfound
    have hvalue : (⟨arg.span, Elaboration.expr scope arg⟩ : Argument).value =
        Elaboration.expr scope arg := heq
    have harg := types_of_expr scope hscope arg hc.1 hclean
    rw [hvalue] at hstep
    obtain ⟨hty, hrest, hstep⟩ := hstep (harg.ne_error hscope hv)
    obtain ⟨es, hes, hargs⟩ := typesAll_of_arguments hscope args hc.2 hlength hrest
    refine ⟨(Elaboration.expr scope arg).1 :: es, by simp [hstep, hes], ?_⟩
    rw [hty] at harg
    exact .cons harg hargs

end

theorem types_of_valueOf (scope : Scope) (hscope : WellFormed scope.levels) {e : Tree.Expr}
    (hc : e.Complete) {t : Ty} (h : (valueOf t scope e).2 = []) :
    Types scope.levels e (valueOf t scope e).1 t := by
  unfold valueOf at h ⊢
  have hclean : (requireValue e.span (Elaboration.expr scope e)).2 = [] := by
    unfold requireTy at h
    by_cases hty : (requireValue e.span (Elaboration.expr scope e)).1.ty ≠ t ∧
        (requireValue e.span (Elaboration.expr scope e)).1.ty ≠ .error
    · simp [hty] at h
    · simpa only [if_neg hty] using h
  obtain ⟨hfound, hv, -⟩ := requireValue_clean hclean
  have he := types_of_expr scope hscope e hc hfound
  obtain ⟨-, hty, heq⟩ := requireTy_clean h (he.ne_error hscope hv)
  rw [heq]
  rwa [hty] at he

/-! ### Statements -/

theorem declare_clean {level : List Variable} {outer : Context} {ident : Tree.Ident}
    {readOnly : Bool} {t : Ty} (hident : ident.name ≠ "")
    (h : (declare ⟨level, outer⟩ ident readOnly t).2 = []) :
    (∀ y ∈ level, y.name ≠ ident.name) ∧
      declare ⟨level, outer⟩ ident readOnly t =
        ((⟨ident.name, readOnly, t⟩, ⟨level ++ [⟨ident.name, readOnly, t⟩], outer⟩), []) := by
  have hfresh : ∀ y ∈ level, y.name ≠ ident.name := by
    intro y hy heq
    have hnone := (Scope.declare?_eq_none_iff ⟨level, outer⟩ ⟨ident.name, readOnly, t⟩).2
      ⟨y, hy, heq⟩
    simp [declare, hident, hnone] at h
  exact ⟨hfresh, declare_of_fresh hident hfresh readOnly t⟩

mutual

/-- The typed statement of an elaboration without issues is one that the rules derive, and the
    scope behind the statement is the context that they leave behind. -/
theorem checks_of_stmt : (s : Tree.Stmt) → s.Complete → {level : List Variable} →
    {outer : Context} → WellFormed (level :: outer) →
    (Elaboration.stmt ⟨level, outer⟩ s).2 = [] →
    ∃ after, (Elaboration.stmt ⟨level, outer⟩ s).1.2 = ⟨after, outer⟩ ∧
      WellFormed (after :: outer) ∧
      Checks (level :: outer) s (Elaboration.stmt ⟨level, outer⟩ s).1.1 (after :: outer)
  | .block _ body _, hc, level, outer, hΓ, h => by
    simp only [Elaboration.stmt, Scope.push, Scope.levels] at h ⊢
    obtain ⟨after, -, -, hbody⟩ := checksAll_of_stmts body hc hΓ.push h
    exact ⟨level, rfl, hΓ, .block hbody⟩
  | .declare _ readOnly ident init, hc, level, outer, hΓ, h => by
    simp only [Elaboration.stmt, List.append_eq_nil_iff] at h ⊢
    obtain ⟨hclean, hv, heq⟩ := requireValue_clean h.1
    have hinit := types_of_expr ⟨level, outer⟩ hΓ init hc.2 hclean
    obtain ⟨hfresh, hdeclare⟩ := declare_clean hc.1 h.2
    have hnamed := (hinit.named_or_void hΓ).resolve_right hv
    rw [hdeclare]
    simp only [value, heq]
    exact ⟨_, rfl, hΓ.declare hnamed hfresh, .declare hinit hv hfresh⟩
  | .ifThen _ condition yes, hc, level, outer, hΓ, h => by
    simp only [Elaboration.stmt, List.append_eq_nil_iff] at h ⊢
    have hcond := types_of_valueOf ⟨level, outer⟩ hΓ hc.1 h.1
    obtain ⟨after, hscope, hΔ, hyes⟩ := checks_of_stmt yes hc.2 hΓ h.2
    exact ⟨after, hscope, hΔ, .ifThen hcond hyes⟩
  | .ifElse _ condition yes no, hc, level, outer, hΓ, h => by
    simp only [Elaboration.stmt, List.append_eq_nil_iff] at h ⊢
    have hcond := types_of_valueOf ⟨level, outer⟩ hΓ hc.1 h.1.1
    obtain ⟨middle, hscope, hΔ, hyes⟩ := checks_of_stmt yes hc.2.1 hΓ h.1.2
    rw [hscope] at h ⊢
    obtain ⟨after, hscope, hΕ, hno⟩ := checks_of_stmt no hc.2.2 hΔ h.2
    exact ⟨after, hscope, hΕ, .ifElse hcond hyes hno⟩
  | .whileDo _ condition body, hc, level, outer, hΓ, h => by
    simp only [Elaboration.stmt, List.append_eq_nil_iff] at h ⊢
    have hcond := types_of_valueOf ⟨level, outer⟩ hΓ hc.1 h.1
    obtain ⟨after, hscope, hΔ, hbody⟩ := checks_of_stmt body hc.2 hΓ h.2
    exact ⟨after, hscope, hΔ, .whileDo hcond hbody⟩
  | .doWhile _ body condition, hc, level, outer, hΓ, h => by
    simp only [Elaboration.stmt, List.append_eq_nil_iff] at h ⊢
    obtain ⟨after, hscope, hΔ, hbody⟩ := checks_of_stmt body hc.1 hΓ h.1
    rw [hscope] at h ⊢
    have hcond := types_of_valueOf ⟨after, outer⟩ hΔ hc.2 h.2
    exact ⟨after, rfl, hΔ, .doWhile hbody hcond⟩
  | .count _ ident lower upper body, hc, level, outer, hΓ, h => by
    simp only [Elaboration.stmt, List.append_eq_nil_iff, Scope.push, Scope.levels] at h ⊢
    have hlower := types_of_valueOf ⟨level, outer⟩ hΓ hc.2.1 h.1.1.1
    have hupper := types_of_valueOf ⟨level, outer⟩ hΓ hc.2.2.1 h.1.1.2
    obtain ⟨hfresh, hdeclare⟩ := declare_clean hc.1 h.1.2
    rw [hdeclare] at h ⊢
    have hinner := hΓ.push.declare (x := ⟨ident.name, true, .int⟩) (.inr (.inl rfl)) hfresh
    obtain ⟨after, -, -, hbody⟩ := checks_of_stmt body hc.2.2.2 hinner h.2
    exact ⟨level, rfl, hΓ, .count hlower hupper hbody⟩
  | .expr e, hc, level, outer, hΓ, h => by
    simp only [Elaboration.stmt] at h ⊢
    exact ⟨level, rfl, hΓ, .expr (types_of_expr ⟨level, outer⟩ hΓ e hc h)⟩

/-- The same for statements one after the other. -/
theorem checksAll_of_stmts : (body : List Tree.Stmt) → Tree.Stmt.AllComplete body →
    {level : List Variable} → {outer : Context} → WellFormed (level :: outer) →
    (Elaboration.stmts ⟨level, outer⟩ body).2 = [] →
    ∃ after, (Elaboration.stmts ⟨level, outer⟩ body).1.2 = ⟨after, outer⟩ ∧
      WellFormed (after :: outer) ∧
      ChecksAll (level :: outer) body (Elaboration.stmts ⟨level, outer⟩ body).1.1 (after :: outer)
  | [], _, level, _, hΓ, _ => ⟨level, rfl, hΓ, .nil⟩
  | s :: rest, hc, level, outer, hΓ, h => by
    simp only [Elaboration.stmts, List.append_eq_nil_iff] at h ⊢
    obtain ⟨middle, hscope, hΔ, hs⟩ := checks_of_stmt s hc.1 hΓ h.1
    rw [hscope] at h ⊢
    obtain ⟨after, hscope, hΕ, hrest⟩ := checksAll_of_stmts rest hc.2 hΔ h.2
    exact ⟨after, hscope, hΕ, .cons hs hrest⟩

end

end SnippetLang.Typing
