import SnippetLang.Proofs.Parsing.Gaps
import SnippetLang.Proofs.Typing.Scopes

/-!
# Derivable programs are accepted

Elaborating a tree that the typing rules derive finds no issue, and answers exactly the typed tree
of the derivation.  The proofs go down the tree and take the derivation apart rule by rule.
-/

namespace SnippetLang.Typing

open Elaboration

/-! ### Checks that pass -/

theorem requireValue_of_ne_void {span : Span} {checked : Checked Typed.Expr}
    (h : checked.1.ty ≠ .void) : requireValue span checked = checked := by
  unfold requireValue
  rw [if_neg h]

theorem requireTy_of_ty_eq {target : Ty} {span : Span} {checked : Checked Typed.Expr}
    (h : checked.1.ty = target) (hv : target ≠ .void) :
    requireTy target span checked = checked := by
  unfold requireTy
  rw [requireValue_of_ne_void (by rw [h]; exact hv)]
  simp [h]

theorem convertible_iff {s t : Ty} : convertible s t = true ↔ s = t ∨ Converts s t := by
  constructor
  · intro h
    cases s <;> cases t <;> first
      | exact .inl rfl
      | exact .inr .intToString
      | exact .inr .boolToString
      | exact .inr .stringToInt
      | exact .inr .stringToBool
      | simp [convertible] at h
  · rintro (rfl | h)
    · simp [convertible]
    · cases h <;> rfl

theorem Converts.ne {s t : Ty} (h : Converts s t) : s ≠ t := by
  cases h <;> decide

theorem Converts.named {s t : Ty} (h : Converts s t) : s.Named ∧ t.Named := by
  cases h <;> decide

/-! ### Tables -/

/-- A row of the table is the one that its operator and its operand resolve to. -/
theorem resolveUnary_eq_some_iff {op : UnaryOp} {t : Ty} {row : UnaryOperator} :
    UnaryOperator.resolve? op t = some row ↔
      row ∈ UnaryOperator.table ∧ row.op = op ∧ row.operand = t := by
  constructor
  · intro h
    have hrow := List.find?_some h
    simp only [Bool.and_eq_true, beq_iff_eq] at hrow
    exact ⟨List.mem_of_find?_eq_some h, hrow⟩
  · rintro ⟨h, rfl, rfl⟩
    revert row
    decide

/-- A row of the table is the one that its operator and its operands resolve to. -/
theorem resolveBinary_eq_some_iff {op : BinaryOp} {s t : Ty} {row : BinaryOperator} :
    BinaryOperator.resolve? op s t = some row ↔
      row ∈ BinaryOperator.table ∧ row.op = op ∧ row.left = s ∧ row.right = t := by
  constructor
  · intro h
    have hrow := List.find?_some h
    simp only [Bool.and_eq_true, beq_iff_eq] at hrow
    exact ⟨List.mem_of_find?_eq_some h, hrow.1.1, hrow.1.2, hrow.2⟩
  · rintro ⟨h, rfl, rfl, rfl⟩
    revert row
    decide

theorem named_of_mem_unary {row : UnaryOperator} (h : row ∈ UnaryOperator.table) :
    row.operand.Named ∧ row.result.Named := by
  revert row
  decide

theorem named_of_mem_binary {row : BinaryOperator} (h : row ∈ BinaryOperator.table) :
    row.left.Named ∧ row.right.Named ∧ row.result.Named := by
  revert row
  decide

theorem ofName?_of_mem {f : Function} (h : f ∈ Function.all) :
    Function.ofName? f.name = some f ∧ Ty.ofName? f.name = none := by
  revert f
  decide

theorem named_of_mem_parameters {f : Function} (h : f ∈ Function.all) {p : Parameter}
    (hp : p ∈ f.parameters) : p.ty.Named := by
  revert p
  revert f
  decide

theorem function_ty {f : Function} (h : f ∈ Function.all) : f.ty.Named ∨ f.ty = .void := by
  revert f
  decide

/-! ### The types of derivations -/

/-- The type of a derivation is that of its typed expression. -/
theorem Types.ty_eq {Γ : Context} {e : Tree.Expr} {e' : Typed.Expr} {t : Ty} :
    Types Γ e e' t → e'.ty = t
  | .int => rfl
  | .bool => rfl
  | .string => rfl
  | .name _ => rfl
  | .assign _ _ _ h => h.ty_eq
  | .unary _ _ => rfl
  | .binary _ _ _ => rfl
  | .paren h => h.ty_eq
  | .call _ _ _ => rfl
  | .sameType _ _ h => h.ty_eq
  | .convert _ _ _ => rfl

/-- In a well-formed context every derivable type has a name, or is that of no value. -/
theorem Types.named_or_void {Γ : Context} (hΓ : WellFormed Γ) {e : Tree.Expr} {e' : Typed.Expr}
    {t : Ty} : Types Γ e e' t → t.Named ∨ t = .void
  | .int => by decide
  | .bool => by decide
  | .string => by decide
  | .name hx => .inl (hΓ.named hx)
  | .assign hx _ _ _ => .inl (hΓ.named hx)
  | .unary hrow _ => .inl (named_of_mem_unary hrow).2
  | .binary hrow _ _ => .inl (named_of_mem_binary hrow).2.2
  | .paren h => h.named_or_void hΓ
  | .call hf _ _ => function_ty hf
  | .sameType ht _ _ => .inl ht
  | .convert hc _ _ => .inl hc.named.2

/-! ### Expressions -/

mutual

/-- An expression that has a type is elaborated to the typed expression that it stands for. -/
theorem expr_of_types (scope : Scope) (hscope : WellFormed scope.levels) :
    (e : Tree.Expr) → e.Complete → {e' : Typed.Expr} → {t : Ty} →
    Types scope.levels e e' t → Elaboration.expr scope e = (e', [])
  | .int _ _, _, _, _, .int => rfl
  | .bool _ _, _, _, _, .bool => rfl
  | .string _ _, _, _, _, .string => rfl
  | .name ident, hident, _, _, .name hx => by
    have hne : ident.name ≠ "" := hident
    rw [Elaboration.expr, nameUse, if_neg hne, (lookup?_eq_some_iff hscope).2 hx]
  | .assign target value, hc, _, _, .assign hx hwritable hvoid h => by
    have hty := h.ty_eq
    rw [Elaboration.expr, expr_of_types scope hscope value hc.2 h,
      requireValue_of_ne_void (by rw [hty]; exact hvoid)]
    simp [assignment, (lookup?_eq_some_iff hscope).2 hx, hwritable, hty]
  | .unary _ span operand, hc, _, _, .unary hrow h => by
    have hty := h.ty_eq
    have hnamed := (named_of_mem_unary hrow).1
    rw [Elaboration.expr, expr_of_types scope hscope operand hc h,
      requireValue_of_ne_void (by rw [hty]; exact hnamed.ne_void)]
    simp [unaryUse, hty, hnamed.ne_error, resolveUnary_eq_some_iff.2 ⟨hrow, rfl, rfl⟩]
  | .binary left _ span right, hc, _, _, .binary hrow hl hr => by
    have hlty := hl.ty_eq
    have hrty := hr.ty_eq
    obtain ⟨hleft, hright, -⟩ := named_of_mem_binary hrow
    rw [Elaboration.expr, expr_of_types scope hscope left hc.1 hl, expr_of_types scope hscope right hc.2 hr,
      requireValue_of_ne_void (by rw [hlty]; exact hleft.ne_void),
      requireValue_of_ne_void (by rw [hrty]; exact hright.ne_void)]
    simp [binaryUse, hlty, hrty, hleft.ne_error, hright.ne_error,
      resolveBinary_eq_some_iff.2 ⟨hrow, rfl, rfl, rfl⟩]
  | .paren _ inner _, hc, _, _, .paren h => expr_of_types scope hscope inner hc h
  | .call callee args closing, hc, _, _, .call hf hname hargs => by
    obtain ⟨hfind, hnone⟩ := ofName?_of_mem hf
    obtain ⟨hlength, harguments⟩ :=
      arguments_of_typesAll hscope args hc.2 (fun p hp => named_of_mem_parameters hf hp) hargs
    rw [← hname] at hfind hnone
    simp [Elaboration.expr, callUse, hnone, functionUse, hfind, hlength, harguments]
  | .call callee [arg] closing, hc, _, _, .sameType ht hname h => by
    have hty := h.ty_eq
    have htarget := Ty.ofName?_eq_some_iff.2 ⟨ht, hname⟩
    rw [Elaboration.expr, exprs, exprs, expr_of_types scope hscope arg hc.2.1 h]
    simp only [callUse, htarget, Argument.value]
    rw [requireValue_of_ne_void (by rw [hty]; exact ht.ne_void)]
    simp [conversion, hty, ht.ne_error, convertible]
  | .call callee [arg] closing, hc, _, _, .convert hconv hname h => by
    have hty := h.ty_eq
    have htarget := Ty.ofName?_eq_some_iff.2 ⟨hconv.named.2, hname⟩
    rw [Elaboration.expr, exprs, exprs, expr_of_types scope hscope arg hc.2.1 h]
    simp only [callUse, htarget, Argument.value]
    rw [requireValue_of_ne_void (by rw [hty]; exact hconv.named.1.ne_void)]
    simp [conversion, hty, hconv.named.1.ne_error, convertible_iff.2 (.inr hconv), hconv.ne]

/-- Expressions that have the types of parameters are accepted as their arguments. -/
theorem arguments_of_typesAll {scope : Scope} (hscope : WellFormed scope.levels) :
    (args : List Tree.Expr) → Tree.Expr.AllComplete args → {es : List Typed.Expr} →
    {parameters : List Parameter} → (∀ p ∈ parameters, p.ty.Named) →
    TypesAll scope.levels args es (parameters.map (·.ty)) →
    (exprs scope args).length = parameters.length ∧
      arguments parameters (exprs scope args) = (some es, [])
  | [], _, _, [], _, .nil => ⟨rfl, rfl⟩
  | arg :: args, hc, e :: es, p :: parameters, hnamed, .cons h hrest => by
    have hty : e.ty = p.ty := h.ty_eq
    have hp := hnamed p (by simp)
    obtain ⟨hlength, hargs⟩ :=
      arguments_of_typesAll hscope args hc.2 (fun q hq => hnamed q (by simp [hq])) hrest
    have hvalue : (⟨arg.span, (e, [])⟩ : Argument).value = (e, []) :=
      requireValue_of_ne_void (by rw [hty]; exact hp.ne_void)
    rw [exprs, expr_of_types scope hscope arg hc.1 h]
    refine ⟨by simp [hlength], ?_⟩
    simp [arguments, hvalue, hty, hp.ne_error, hargs]

end

/-- An expression of a type that has values is accepted where a value is needed. -/
theorem value_of_types (scope : Scope) (hscope : WellFormed scope.levels) {e : Tree.Expr}
    (hc : e.Complete) {e' : Typed.Expr} {t : Ty} (h : Types scope.levels e e' t)
    (ht : t ≠ .void) : value scope e = (e', []) := by
  rw [value, expr_of_types scope hscope e hc h]
  exact requireValue_of_ne_void (by rw [h.ty_eq]; exact ht)

/-- An expression of a type is accepted where a value of the type is needed. -/
theorem valueOf_of_types (scope : Scope) (hscope : WellFormed scope.levels) {e : Tree.Expr}
    (hc : e.Complete) {e' : Typed.Expr} {t : Ty} (h : Types scope.levels e e' t)
    (ht : t ≠ .void) : valueOf t scope e = (e', []) := by
  rw [valueOf, expr_of_types scope hscope e hc h]
  exact requireTy_of_ty_eq h.ty_eq ht

/-! ### Statements -/

theorem declare_of_fresh {level : List Variable} {outer : Context} {ident : Tree.Ident}
    (hident : ident.name ≠ "") (hfresh : ∀ y ∈ level, y.name ≠ ident.name) (readOnly : Bool)
    (t : Ty) :
    declare ⟨level, outer⟩ ident readOnly t =
      ((⟨ident.name, readOnly, t⟩, ⟨level ++ [⟨ident.name, readOnly, t⟩], outer⟩), []) := by
  have h : (⟨level, outer⟩ : Scope).declare? ⟨ident.name, readOnly, t⟩ =
      some ⟨level ++ [⟨ident.name, readOnly, t⟩], outer⟩ :=
    declare?_eq_some_iff.2 ⟨hfresh, rfl⟩
  simp [declare, hident, h]

mutual

/-- A statement that the rules derive is elaborated to the typed statement of the derivation, and
    leaves behind the scope that the rules say. -/
theorem stmt_of_checks : (s : Tree.Stmt) → s.Complete → {level : List Variable} →
    {outer Δ : Context} → {s' : Typed.Stmt} → WellFormed (level :: outer) →
    Checks (level :: outer) s s' Δ →
    ∃ after, Δ = after :: outer ∧ WellFormed Δ ∧
      Elaboration.stmt ⟨level, outer⟩ s = ((s', ⟨after, outer⟩), [])
  | .block _ body _, hc, level, outer, _, _, hΓ, .block h => by
    obtain ⟨after, rfl, -, hbody⟩ := stmts_of_checksAll body hc hΓ.push h
    refine ⟨level, rfl, hΓ, ?_⟩
    simp [Elaboration.stmt, Scope.push, Scope.levels, hbody]
  | .declare _ readOnly ident init, hc, level, outer, _, _, hΓ, .declare h ht hfresh => by
    have hnamed := (h.named_or_void hΓ).resolve_right ht
    have hinit := value_of_types ⟨level, outer⟩ hΓ hc.2 h ht
    refine ⟨_, rfl, hΓ.declare hnamed hfresh, ?_⟩
    simp [Elaboration.stmt, hinit, h.ty_eq, declare_of_fresh hc.1 hfresh]
  | .ifThen _ condition yes, hc, level, outer, _, _, hΓ, .ifThen h hyes => by
    have hcond := valueOf_of_types ⟨level, outer⟩ hΓ hc.1 h (by decide)
    obtain ⟨after, rfl, hΔ, hyes⟩ := stmt_of_checks yes hc.2 hΓ hyes
    refine ⟨after, rfl, hΔ, ?_⟩
    simp [Elaboration.stmt, hcond, hyes]
  | .ifElse _ condition yes no, hc, level, outer, _, _, hΓ, .ifElse h hyes hno => by
    have hcond := valueOf_of_types ⟨level, outer⟩ hΓ hc.1 h (by decide)
    obtain ⟨middle, rfl, hΔ, hyes⟩ := stmt_of_checks yes hc.2.1 hΓ hyes
    obtain ⟨after, rfl, hΕ, hno⟩ := stmt_of_checks no hc.2.2 hΔ hno
    refine ⟨after, rfl, hΕ, ?_⟩
    simp [Elaboration.stmt, hcond, hyes, hno]
  | .whileDo _ condition body, hc, level, outer, _, _, hΓ, .whileDo h hbody => by
    have hcond := valueOf_of_types ⟨level, outer⟩ hΓ hc.1 h (by decide)
    obtain ⟨after, rfl, hΔ, hbody⟩ := stmt_of_checks body hc.2 hΓ hbody
    refine ⟨after, rfl, hΔ, ?_⟩
    simp [Elaboration.stmt, hcond, hbody]
  | .doWhile _ body condition, hc, level, outer, _, _, hΓ, .doWhile hbody h => by
    obtain ⟨after, rfl, hΔ, hbody⟩ := stmt_of_checks body hc.1 hΓ hbody
    have hcond := valueOf_of_types ⟨after, outer⟩ hΔ hc.2 h (by decide)
    refine ⟨after, rfl, hΔ, ?_⟩
    simp [Elaboration.stmt, hcond, hbody]
  | .count _ ident lower upper body, hc, level, outer, _, _, hΓ, .count hl hu hbody => by
    have hlower := valueOf_of_types ⟨level, outer⟩ hΓ hc.2.1 hl (by decide)
    have hupper := valueOf_of_types ⟨level, outer⟩ hΓ hc.2.2.1 hu (by decide)
    have hfresh : ∀ y ∈ ([] : List Variable), y.name ≠ ident.name := by simp
    have hinner := hΓ.push.declare (x := ⟨ident.name, true, .int⟩) (.inr (.inl rfl)) hfresh
    obtain ⟨after, rfl, -, hbody⟩ := stmt_of_checks body hc.2.2.2 hinner hbody
    refine ⟨level, rfl, hΓ, ?_⟩
    have hdeclare := @declare_of_fresh [] (level :: outer) ident hc.1 hfresh true .int
    simp only [List.nil_append] at hbody hdeclare
    simp [Elaboration.stmt, hlower, hupper, Scope.push, Scope.levels, hdeclare, hbody]
  | .expr e, hc, level, outer, _, _, hΓ, .expr h => by
    have he := expr_of_types ⟨level, outer⟩ hΓ e hc h
    refine ⟨level, rfl, hΓ, ?_⟩
    simp [Elaboration.stmt, he]

/-- The same for statements one after the other. -/
theorem stmts_of_checksAll : (body : List Tree.Stmt) → Tree.Stmt.AllComplete body →
    {level : List Variable} → {outer Δ : Context} → {body' : List Typed.Stmt} →
    WellFormed (level :: outer) → ChecksAll (level :: outer) body body' Δ →
    ∃ after, Δ = after :: outer ∧ WellFormed Δ ∧
      Elaboration.stmts ⟨level, outer⟩ body = ((body', ⟨after, outer⟩), [])
  | [], _, level, _, _, _, hΓ, .nil => ⟨level, rfl, hΓ, rfl⟩
  | s :: rest, hc, _, _, _, _, hΓ, .cons h hrest => by
    obtain ⟨middle, rfl, hΔ, hs⟩ := stmt_of_checks s hc.1 hΓ h
    obtain ⟨after, rfl, hΕ, hrest⟩ := stmts_of_checksAll rest hc.2 hΔ hrest
    refine ⟨after, rfl, hΕ, ?_⟩
    simp [Elaboration.stmts, hs, hrest]

end

end SnippetLang.Typing
