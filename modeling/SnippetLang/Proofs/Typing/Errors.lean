import Mathlib
import SnippetLang.Proofs.Typing.Acceptance
import SnippetLang.Snippet.Evaluation

/-!
# What failed snippets leave behind

A snippet sees what its predecessors declared, also what they declared with an expression that an
issue was reported for.  Such a variable has the error type, and every use of it is silent, so a
snippet can have no issues of its own and still hold expressions of the error type.

That is the only way in for them.  Where every name in sight means a variable of another type, a
snippet without issues is free of errors and leaves the same behind, whatever is wrong with its
predecessors.
-/

namespace SnippetLang

/-! ### Trees without errors -/

namespace Typed

mutual

/-- No error node, and no variable or expression of the error type. -/
def Expr.ErrorFree : Expr → Prop
  | .error => False
  | .literal _ => True
  | .read x => x.ty ≠ .error
  | .assign x value => x.ty ≠ .error ∧ value.ErrorFree
  | .unary row operand => row.result ≠ .error ∧ operand.ErrorFree
  | .binary left row right => row.result ≠ .error ∧ left.ErrorFree ∧ right.ErrorFree
  | .call f args => f.ty ≠ .error ∧ Expr.AllErrorFree args
  | .convert target e => target ≠ .error ∧ e.ErrorFree

def Expr.AllErrorFree : List Expr → Prop
  | [] => True
  | e :: es => e.ErrorFree ∧ Expr.AllErrorFree es

end

theorem Expr.ErrorFree.ty_ne_error {e : Expr} (h : e.ErrorFree) : e.ty ≠ .error := by
  induction e using Expr.rec (motive_2 := fun _ => True) with
  | error => exact absurd h id
  | literal v => cases v <;> exact nofun
  | read x => exact h
  | assign x value ih => exact ih h.2
  | unary row operand => exact h.1
  | binary left row right => exact h.1
  | call f args => exact h.1
  | convert target e => exact h.1
  | nil => trivial
  | cons => trivial

mutual

/-- The same for all expressions of a statement and the variables that it declares. -/
def Stmt.ErrorFree : Stmt → Prop
  | .block body => Stmt.AllErrorFree body
  | .declare x init => x.ty ≠ .error ∧ init.ErrorFree
  | .expr e => e.ErrorFree
  | .ifThen condition yes => condition.ErrorFree ∧ yes.ErrorFree
  | .ifElse condition yes no => condition.ErrorFree ∧ yes.ErrorFree ∧ no.ErrorFree
  | .whileDo condition body => condition.ErrorFree ∧ body.ErrorFree
  | .doWhile body condition => body.ErrorFree ∧ condition.ErrorFree
  | .count x lower upper body =>
    x.ty ≠ .error ∧ lower.ErrorFree ∧ upper.ErrorFree ∧ body.ErrorFree
  | .goto _ => True
  | .gotoIf _ condition _ => condition.ErrorFree
  | .label _ => True
  | .result ty => ty ≠ .error

def Stmt.AllErrorFree : List Stmt → Prop
  | [] => True
  | s :: rest => s.ErrorFree ∧ Stmt.AllErrorFree rest

end

end Typed

/-! ### Names in sight -/

theorem Ty.named_of_ne {t : Ty} (he : t ≠ .error) (hv : t ≠ .void) : t.Named := by
  cases t <;> first
    | exact absurd rfl he
    | exact absurd rfl hv
    | decide

/-- Every name in sight means a variable of a type that programs have a name for. -/
def Scope.Usable (scope : Scope) : Prop := ∀ name x, scope.lookup? name = some x → x.ty.Named

namespace Scope.Usable

variable {scope after : Scope} {x : Variable}

theorem push (h : scope.Usable) : scope.push.Usable := by
  intro name y hy
  rw [lookup?_push] at hy
  exact h name y hy

theorem declare (h : scope.Usable) (hx : x.ty.Named) (hafter : scope.declare? x = some after) :
    after.Usable := by
  intro name y hy
  rw [lookup?_declare? hafter] at hy
  split at hy
  · obtain rfl := Option.some.inj hy
    exact hx
  · exact h name y hy

end Scope.Usable

namespace Elaboration

open Typing

/-! ### Elaboration among usable names -/

/-- What is written like a call is a conversion of its one argument or the use of a function. -/
theorem callUse_cases (callee : Tree.Ident) (span : Span) (args : List Argument) :
    (∃ target arg, Ty.ofName? callee.name = some target ∧ args = [arg] ∧
      callUse callee span args = ((conversion target arg.span arg.value.1).1,
        arg.value.2 ++ (conversion target arg.span arg.value.1).2)) ∨
      callUse callee span args = functionUse callee span args := by
  unfold callUse
  split
  · next target arg htarget => exact .inl ⟨target, arg, htarget, rfl, rfl⟩
  · exact .inr rfl

theorem functionUse_clean {callee : Tree.Ident} {span : Span} {args : List Argument}
    (h : (functionUse callee span args).2 = []) :
    ∃ f, f ∈ Function.all ∧ args.length = f.parameters.length ∧
      (arguments f.parameters args).2 = [] ∧
      ∀ es, arguments f.parameters args = (some es, []) →
        functionUse callee span args = (.call f es, []) := by
  unfold functionUse at h ⊢
  cases hf : Function.ofName? callee.name with
  | none => simp [hf] at h
  | some f =>
    by_cases hlength : args.length = f.parameters.length
    · simp only [hf, if_pos hlength] at h ⊢
      refine ⟨f, (function_ofName? hf).1, hlength, ?_, ?_⟩
      · split at h <;> simp_all
      · intro es hes
        simp [hes]
    · simp [hf, hlength] at h

mutual

/-- Where all names are usable, an expression without gaps and without issues is free of errors. -/
theorem expr_errorFree {scope : Scope} (hscope : scope.Usable) : (e : Tree.Expr) → e.Complete →
    (expr scope e).2 = [] → (expr scope e).1.ErrorFree
  | .error _, hc, _ => nomatch hc
  | .int _ _, _, _ => trivial
  | .bool _ _, _, _ => trivial
  | .string _ _, _, _ => trivial
  | .name ident, hident, h => by
    have hne : ident.name ≠ "" := hident
    rw [expr, nameUse, if_neg hne] at h ⊢
    cases hx : scope.lookup? ident.name with
    | none => simp [hx] at h
    | some x => exact (hscope _ x hx).ne_error
  | .assign target value, hc, h => by
    simp only [expr, List.append_eq_nil_iff] at h ⊢
    obtain ⟨hclean, -, heq⟩ := requireValue_clean h.1
    have hvalue := expr_errorFree hscope value hc.2 hclean
    rw [heq] at h ⊢
    obtain ⟨x, hx, -, -, huse⟩ := assignment_clean h.2 hvalue.ty_ne_error
    rw [huse]
    exact ⟨(hscope _ x hx).ne_error, hvalue⟩
  | .unary op span operand, hc, h => by
    simp only [expr, List.append_eq_nil_iff] at h ⊢
    obtain ⟨hclean, -, heq⟩ := requireValue_clean h.1
    have hoperand := expr_errorFree hscope operand hc hclean
    rw [heq] at h ⊢
    obtain ⟨row, hrow, huse⟩ := unaryUse_clean h.2 hoperand.ty_ne_error
    rw [huse]
    exact ⟨(named_of_mem_unary (resolveUnary_eq_some_iff.1 hrow).1).2.ne_error, hoperand⟩
  | .binary left op span right, hc, h => by
    simp only [expr, List.append_eq_nil_iff] at h ⊢
    obtain ⟨hlclean, -, hleq⟩ := requireValue_clean h.1.1
    obtain ⟨hrclean, -, hreq⟩ := requireValue_clean h.1.2
    have hleft := expr_errorFree hscope left hc.1 hlclean
    have hright := expr_errorFree hscope right hc.2 hrclean
    rw [hleq, hreq] at h ⊢
    obtain ⟨row, hrow, huse⟩ := binaryUse_clean h.2 hleft.ty_ne_error hright.ty_ne_error
    rw [huse]
    exact ⟨(named_of_mem_binary (resolveBinary_eq_some_iff.1 hrow).1).2.2.ne_error, hleft, hright⟩
  | .paren _ inner _, hc, h => expr_errorFree hscope inner hc h
  | .call callee args closing, hc, h => by
    rw [expr] at h ⊢
    rcases callUse_cases callee (callee.span.merge closing) (exprs scope args) with
      ⟨target, arg, htarget, hargs, huse⟩ | huse
    · rw [huse] at h ⊢
      obtain ⟨hfound, hconversion⟩ := List.append_eq_nil_iff.1 h
      have harg := exprs_errorFree hscope args hc.2 arg (by simp [hargs]) hfound
      have htarget := (Ty.ofName?_eq_some_iff.1 htarget).1
      rcases conversion_clean hconversion harg.ty_ne_error with ⟨-, huse⟩ | ⟨-, huse⟩
      · rw [huse]
        exact harg
      · rw [huse]
        exact ⟨htarget.ne_error, harg⟩
    · rw [huse] at h ⊢
      obtain ⟨f, hf, hlength, hfound, hcall⟩ := functionUse_clean h
      obtain ⟨es, hes, hfree⟩ := arguments_errorFree hscope args hc.2 hlength hfound
      rw [hcall es hes]
      refine ⟨?_, hfree⟩
      rcases function_ty hf with hnamed | hvoid
      · exact hnamed.ne_error
      · simp [hvoid]

/-- The same for each of the arguments of a call. -/
theorem exprs_errorFree {scope : Scope} (hscope : scope.Usable) : (es : List Tree.Expr) →
    Tree.Expr.AllComplete es → ∀ a ∈ exprs scope es, a.value.2 = [] → a.value.1.ErrorFree
  | [], _ => nofun
  | e :: es, hc => by
    intro a ha h
    rcases List.mem_cons.1 ha with rfl | ha
    · obtain ⟨hclean, -, heq⟩ := requireValue_clean h
      have hvalue : (⟨e.span, expr scope e⟩ : Argument).value = expr scope e := heq
      rw [hvalue]
      exact expr_errorFree hscope e hc.1 hclean
    · exact exprs_errorFree hscope es hc.2 a ha h

/-- Arguments that were accepted for parameters are free of errors. -/
theorem arguments_errorFree {scope : Scope} (hscope : scope.Usable) : (es : List Tree.Expr) →
    Tree.Expr.AllComplete es → {parameters : List Parameter} →
    (exprs scope es).length = parameters.length →
    (arguments parameters (exprs scope es)).2 = [] →
    ∃ args, arguments parameters (exprs scope es) = (some args, []) ∧
      Typed.Expr.AllErrorFree args
  | [], _, [], _, _ => ⟨[], rfl, trivial⟩
  | [], _, _ :: _, hlength, _ => by simp [exprs] at hlength
  | _ :: _, _, [], hlength, _ => by simp [exprs] at hlength
  | e :: es, hc, p :: parameters, hlength, h => by
    simp only [exprs, List.length_cons, Nat.add_right_cancel_iff] at hlength
    simp only [exprs] at h ⊢
    obtain ⟨hfound, hstep⟩ := arguments_clean h
    have hfirst := exprs_errorFree hscope (e :: es) hc _ (List.mem_cons_self ..) hfound
    obtain ⟨-, hrest, hstep⟩ := hstep hfirst.ty_ne_error
    obtain ⟨args, hargs, hfree⟩ := arguments_errorFree hscope es hc.2 hlength hrest
    exact ⟨_ :: args, by rw [hstep, hargs]; rfl, hfirst, hfree⟩

end

theorem requireTy_value {target : Ty} {span : Span} {checked : Checked Typed.Expr}
    (h : (requireTy target span checked).2 = []) : (requireValue span checked).2 = [] := by
  simp only [requireTy] at h
  split at h
  · simp at h
  · exact h

theorem value_errorFree {scope : Scope} (hscope : scope.Usable) {e : Tree.Expr} (hc : e.Complete)
    (h : (value scope e).2 = []) :
    (value scope e).1.ErrorFree ∧ (value scope e).1.ty.Named := by
  obtain ⟨hclean, hv, heq⟩ := requireValue_clean h
  have hfree := expr_errorFree hscope e hc hclean
  have hvalue : value scope e = expr scope e := heq
  rw [hvalue]
  exact ⟨hfree, Ty.named_of_ne hfree.ty_ne_error hv⟩

theorem valueOf_errorFree {scope : Scope} (hscope : scope.Usable) {e : Tree.Expr}
    (hc : e.Complete) {t : Ty} (h : (valueOf t scope e).2 = []) :
    (valueOf t scope e).1.ErrorFree := by
  have hfree := expr_errorFree hscope e hc (requireValue_clean (requireTy_value h)).1
  obtain ⟨-, -, heq⟩ := requireTy_clean h hfree.ty_ne_error
  have hvalue : valueOf t scope e = expr scope e := heq
  rw [hvalue]
  exact hfree

theorem declare_usable {scope : Scope} (hscope : scope.Usable) {ident : Tree.Ident}
    {readOnly : Bool} {t : Ty} (hident : ident.name ≠ "") (ht : t.Named)
    (h : (declare scope ident readOnly t).2 = []) :
    (declare scope ident readOnly t).1.1 = ⟨ident.name, readOnly, t⟩ ∧
      (declare scope ident readOnly t).1.2.Usable := by
  unfold declare at h ⊢
  rw [if_neg hident] at h ⊢
  cases hafter : scope.declare? ⟨ident.name, readOnly, t⟩ with
  | none => simp [hafter] at h
  | some after => exact ⟨rfl, hscope.declare ht hafter⟩

mutual

/-- Where all names are usable, a statement without gaps and without issues is free of errors, and
    the names behind it are usable again. -/
theorem stmt_errorFree : (s : Tree.Stmt) → s.Complete → {scope : Scope} → scope.Usable →
    (stmt scope s).2 = [] → (stmt scope s).1.1.ErrorFree ∧ (stmt scope s).1.2.Usable
  | .block _ body _, hc, scope, hscope, h => by
    rw [stmt] at h ⊢
    exact ⟨(stmts_errorFree body hc hscope.push h).1, hscope⟩
  | .declare _ readOnly ident init, hc, scope, hscope, h => by
    simp only [stmt, List.append_eq_nil_iff] at h ⊢
    obtain ⟨hfree, hnamed⟩ := value_errorFree hscope hc.2 h.1
    obtain ⟨hx, hafter⟩ := declare_usable hscope hc.1 hnamed h.2
    rw [hx]
    exact ⟨⟨hnamed.ne_error, hfree⟩, hafter⟩
  | .ifThen _ condition yes, hc, scope, hscope, h => by
    simp only [stmt, List.append_eq_nil_iff] at h ⊢
    have hcondition := valueOf_errorFree hscope hc.1 h.1
    obtain ⟨hyes, hafter⟩ := stmt_errorFree yes hc.2 hscope h.2
    exact ⟨⟨hcondition, hyes⟩, hafter⟩
  | .ifElse _ condition yes no, hc, scope, hscope, h => by
    simp only [stmt, List.append_eq_nil_iff] at h ⊢
    have hcondition := valueOf_errorFree hscope hc.1 h.1.1
    obtain ⟨hyes, hmiddle⟩ := stmt_errorFree yes hc.2.1 hscope h.1.2
    obtain ⟨hno, hafter⟩ := stmt_errorFree no hc.2.2 hmiddle h.2
    exact ⟨⟨hcondition, hyes, hno⟩, hafter⟩
  | .whileDo _ condition body, hc, scope, hscope, h => by
    simp only [stmt, List.append_eq_nil_iff] at h ⊢
    have hcondition := valueOf_errorFree hscope hc.1 h.1
    obtain ⟨hbody, hafter⟩ := stmt_errorFree body hc.2 hscope h.2
    exact ⟨⟨hcondition, hbody⟩, hafter⟩
  | .doWhile _ body condition, hc, scope, hscope, h => by
    simp only [stmt, List.append_eq_nil_iff] at h ⊢
    obtain ⟨hbody, hafter⟩ := stmt_errorFree body hc.1 hscope h.1
    exact ⟨⟨hbody, valueOf_errorFree hafter hc.2 h.2⟩, hafter⟩
  | .count _ ident lower upper body, hc, scope, hscope, h => by
    simp only [stmt, List.append_eq_nil_iff] at h ⊢
    have hint : Ty.int.Named := .inr (.inl rfl)
    have hlower := valueOf_errorFree hscope hc.2.1 h.1.1.1
    have hupper := valueOf_errorFree hscope hc.2.2.1 h.1.1.2
    obtain ⟨hx, hinner⟩ := declare_usable hscope.push hc.1 hint h.1.2
    have hbody := (stmt_errorFree body hc.2.2.2 hinner h.2).1
    rw [hx]
    exact ⟨⟨hint.ne_error, hlower, hupper, hbody⟩, hscope⟩
  | .expr e, hc, scope, hscope, h => by
    rw [stmt] at h ⊢
    exact ⟨expr_errorFree hscope e hc h, hscope⟩

theorem stmts_errorFree : (body : List Tree.Stmt) → Tree.Stmt.AllComplete body →
    {scope : Scope} → scope.Usable → (stmts scope body).2 = [] →
    Typed.Stmt.AllErrorFree (stmts scope body).1.1 ∧ (stmts scope body).1.2.Usable
  | [], _, scope, hscope, _ => ⟨trivial, hscope⟩
  | s :: rest, hc, scope, hscope, h => by
    simp only [stmts, List.append_eq_nil_iff] at h ⊢
    obtain ⟨hs, hmiddle⟩ := stmt_errorFree s hc.1 hscope h.1
    obtain ⟨hrest, hafter⟩ := stmts_errorFree rest hc.2 hmiddle h.2
    exact ⟨⟨hs, hrest⟩, hafter⟩

end

/-! ### What any statement declares -/

/-- A scope differs from another one by declarations that were added to its innermost level, none of
    them of a variable without a value. -/
def Extends (scope after : Scope) : Prop :=
  ∃ added, after = ⟨scope.declared ++ added, scope.enclosing⟩ ∧ ∀ x ∈ added, x.ty ≠ .void

theorem Extends.refl (scope : Scope) : Extends scope scope :=
  ⟨[], by rw [List.append_nil], nofun⟩

theorem Extends.trans {scope middle after : Scope} (h : Extends scope middle)
    (h' : Extends middle after) : Extends scope after := by
  obtain ⟨added, rfl, hadded⟩ := h
  obtain ⟨more, rfl, hmore⟩ := h'
  refine ⟨added ++ more, by rw [List.append_assoc], ?_⟩
  intro x hx
  rcases List.mem_append.1 hx with hx | hx
  · exact hadded x hx
  · exact hmore x hx

theorem requireValue_ne_void (span : Span) (checked : Checked Typed.Expr) :
    (requireValue span checked).1.ty ≠ .void := by
  unfold requireValue
  split
  · exact nofun
  · assumption

theorem extends_declare (scope : Scope) (ident : Tree.Ident) (readOnly : Bool) {t : Ty}
    (ht : t ≠ .void) : Extends scope (declare scope ident readOnly t).1.2 := by
  simp only [declare]
  split
  · exact .refl scope
  · split
    · next after hafter =>
      obtain ⟨-, rfl⟩ := declare?_eq_some_iff.1 hafter
      refine ⟨[⟨ident.name, readOnly, t⟩], rfl, ?_⟩
      intro x hx
      obtain rfl := List.mem_singleton.1 hx
      exact ht
    · exact .refl scope

mutual

/-- Whatever is wrong with a statement, it declares no variable without a value, and it leaves the
    levels around the innermost one alone. -/
theorem extends_stmt : (s : Tree.Stmt) → (scope : Scope) → Extends scope (stmt scope s).1.2
  | .block _ _ _, scope => .refl scope
  | .declare _ readOnly ident init, scope => by
    rw [stmt]
    exact extends_declare scope ident readOnly (requireValue_ne_void _ _)
  | .ifThen _ _ yes, scope => by
    rw [stmt]
    exact extends_stmt yes scope
  | .ifElse _ _ yes no, scope => by
    rw [stmt]
    exact (extends_stmt yes scope).trans (extends_stmt no _)
  | .whileDo _ _ body, scope => by
    rw [stmt]
    exact extends_stmt body scope
  | .doWhile _ body _, scope => by
    rw [stmt]
    exact extends_stmt body scope
  | .count _ _ _ _ _, scope => by
    rw [stmt]
    exact .refl scope
  | .expr _, scope => .refl scope

theorem extends_stmts : (body : List Tree.Stmt) → (scope : Scope) →
    Extends scope (stmts scope body).1.2
  | [], scope => .refl scope
  | s :: rest, scope => by
    rw [stmts]
    exact (extends_stmt s scope).trans (extends_stmts rest _)

end

end Elaboration

/-! ### Chains -/

namespace Snippet

/-- A snippet behind a chain of others, each of which may have issues. -/
inductive Chained : Snippet → Prop where
  | first {source : String} : Chained (first source)
  | next {previous : Snippet} {source : String} : Chained previous → Chained (previous.next source)

/-- The scope that a snippet begins in. -/
def outset (s : Snippet) : Scope := ⟨[], s.enclosing⟩

/-- The scope that a snippet leaves behind. -/
def behind (s : Snippet) : Scope := ⟨s.declared, s.enclosing⟩

theorem behind_within (enclosing : List (List Variable)) (source : String) :
    (within enclosing source).behind =
      (Elaboration.stmts ⟨[], enclosing⟩ (parse source).root.statements).1.2 := by
  obtain ⟨added, hafter, -⟩ :=
    Elaboration.extends_stmts (parse source).root.statements ⟨[], enclosing⟩
  have hdeclared : (within enclosing source).declared = added := congrArg Scope.declared hafter
  rw [hafter, behind, hdeclared]
  rfl

/-- No variable of a chain is without a value, in sight or not. -/
theorem Chained.ne_void {s : Snippet} (h : s.Chained) :
    ∀ level ∈ s.behind.levels, ∀ x ∈ level, x.ty ≠ .void := by
  have hwithin : ∀ enclosing source, (∀ level ∈ enclosing, ∀ x ∈ level, x.ty ≠ .void) →
      ∀ level ∈ (within enclosing source).behind.levels, ∀ x ∈ level, x.ty ≠ .void := by
    intro enclosing source henclosing level hlevel
    obtain ⟨added, hafter, hadded⟩ :=
      Elaboration.extends_stmts (parse source).root.statements ⟨[], enclosing⟩
    rw [behind_within, hafter] at hlevel
    rcases List.mem_cons.1 hlevel with rfl | hlevel
    · exact hadded
    · exact henclosing level hlevel
  induction h with
  | first => exact hwithin [] _ nofun
  | next _ ih => exact hwithin _ _ ih

theorem Chained.ne_void_of_lookup {s : Snippet} (h : s.Chained) {name : String} {x : Variable}
    (hx : s.outset.lookup? name = some x) : x.ty ≠ .void := by
  obtain ⟨level, hlevel, hfind⟩ := List.exists_of_findSome?_eq_some hx
  rcases List.mem_cons.1 hlevel with rfl | hlevel
  · cases hfind
  · exact h.ne_void level (List.mem_cons_of_mem _ hlevel) x (List.mem_of_find?_eq_some hfind)

theorem errorFree_within {enclosing : List (List Variable)} {source : String}
    (h : (within enclosing source).issues = []) (hscope : Scope.Usable ⟨[], enclosing⟩) :
    (within enclosing source).statement.ErrorFree ∧ (within enclosing source).behind.Usable := by
  obtain ⟨hparsed, hfound⟩ := List.append_eq_nil_iff.1 h
  obtain ⟨hfree, husable⟩ := Elaboration.stmts_errorFree _ (complete_of_parse hparsed) hscope hfound
  rw [behind_within]
  exact ⟨hfree, husable⟩

/-- Whatever is wrong with its predecessors, a snippet without issues is free of errors if no name in
    sight means a variable of the error type, and then no name means one behind it either. -/
theorem errorFree_of_names {s : Snippet} (h : s.Chained) (hissues : s.issues = [])
    (hnames : ∀ name x, s.outset.lookup? name = some x → x.ty ≠ .error) :
    s.statement.ErrorFree ∧ ∀ name x, s.behind.lookup? name = some x → x.ty ≠ .error := by
  have hscope : s.outset.Usable := by
    intro name x hx
    exact Ty.named_of_ne (hnames name x hx) (h.ne_void_of_lookup hx)
  have hwithin : s.statement.ErrorFree ∧ s.behind.Usable := by
    cases h with
    | first => exact errorFree_within hissues hscope
    | next => exact errorFree_within hissues hscope
  exact ⟨hwithin.1, fun name x hx => (hwithin.2 name x hx).ne_error⟩

/-- A predecessor that fails without declaring anything does no harm. -/
theorem errorFree_of_names_behind_failure :
    let s := (first "print(missing)").next "var a = 1 a + 1"
    (first "print(missing)").issues ≠ [] ∧ s.statement.ErrorFree := by
  intro s
  have hnames : ∀ name x, s.outset.lookup? name = some x → x.ty ≠ .error := by
    have hlevels : s.outset.levels = [[], []] := by decide +kernel
    intro name x hx
    rw [Scope.lookup?, hlevels] at hx
    cases hx
  exact ⟨by decide +kernel,
    (errorFree_of_names (.next .first) (by decide +kernel) hnames).1⟩

/-- Behind a declaration that was reported, a snippet without issues of its own can hold an error
    node: the variable has the error type, its use is silent, and the walk runs into the node. -/
theorem error_behind_failure :
    let s := (first "var a = missing").next "a + 1"
    s.Chained ∧ s.issues = [] ∧ ¬ s.statement.ErrorFree ∧
      ∀ σ, s.evaluate .treeWalk σ 1 =
        some (.ended (.error (.internal (.unexpectedNode .evaluator "error expression")) σ)) := by
  intro s
  have hissues : s.issues = [] := by decide +kernel
  have hstatement : s.statement = .block [.expr .error] := by cbv
  refine ⟨.next .first, hissues, ?_, ?_⟩
  · rw [hstatement]
    intro h
    exact h.1
  · intro σ
    have hlowered : s.lowered = [.expr .error] := by
      rw [lowered, hstatement]
      rfl
    rw [evaluate, if_pos (by rw [hissues]; rfl), execution, hlowered]
    rfl

end Snippet

end SnippetLang
