import SnippetLang.Proofs.Parsing.Printing
import SnippetLang.Proofs.Printing.Answers
import SnippetLang.Proofs.Typing.Trees

/-!
# The surface of a typed expression

The text of a typed expression is that of a surface expression: names stand for variables, functions
and types, and each binary operator has parentheses around it and its operands.  An assignment has no
parentheses, so as an operand of an operator it would not be read as one.  Apart from that, the surface
of an answer is canonical, and wherever its parts are, the elaborator makes of it what it is the
surface of.
-/

namespace SnippetLang

open SnippetLang.Tree (nowhere)

namespace Typed

/-! ### Surfaces -/

/-- A literal as it is written; the empty value is not. -/
def literalSurface : Value → Tree.Expr
  | .bool b => .bool nowhere b
  | .int n => .int nowhere n
  | .string s => .string nowhere s
  | .void => .error nowhere

mutual

/-- The surface expression that the text of an expression is the text of. -/
def Expr.surface : Expr → Tree.Expr
  | .error => .error nowhere
  | .literal v => literalSurface v
  | .read x => .name ⟨x.name, nowhere⟩
  | .assign x value => .assign ⟨x.name, nowhere⟩ value.surface
  | .unary row operand => .unary row.op nowhere operand.surface
  | .binary left row right =>
    .paren nowhere (.binary left.surface row.op nowhere right.surface) nowhere
  | .call f args => .call ⟨f.name, nowhere⟩ (Expr.allSurface args) nowhere
  | .convert target e => .call ⟨target.name, nowhere⟩ [e.surface] nowhere

/-- The surface expressions of expressions. -/
def Expr.allSurface : List Expr → List Tree.Expr
  | [] => []
  | e :: es => e.surface :: Expr.allSurface es

end

/-! ### Operands -/

/-- An assignment. -/
def Expr.IsAssign : Expr → Prop
  | .assign _ _ => True
  | _ => False

/-- The operands of an operator are not assignments. -/
def Expr.PlainOperands : Expr → Prop
  | .unary _ operand => ¬ operand.IsAssign
  | .binary left _ right => ¬ left.IsAssign ∧ ¬ right.IsAssign
  | _ => True

namespace Expr

theorem mem_parts_self (e : Expr) : e ∈ e.parts := by
  cases e <;> exact List.mem_cons_self

theorem parts_subset {e : Expr} {es : List Expr} (h : e ∈ es) : e.parts ⊆ allParts es := by
  induction es with
  | nil => cases h
  | cons first others ih =>
    rw [allParts]
    rcases List.mem_cons.1 h with rfl | h
    · exact List.subset_append_left _ _
    · exact List.subset_append_of_subset_right _ (ih h)

theorem not_isAssign_surface {e : Expr} (h : ¬ e.IsAssign) : ¬ e.surface.IsAssign := by
  cases e with
  | assign _ _ => exact absurd trivial h
  | literal v => cases v <;> exact id
  | _ => exact id

/-- Binary operators are in parentheses. -/
theorem precedence?_surface (e : Expr) : e.surface.precedence? = none := by
  cases e with
  | literal v => cases v <;> rfl
  | _ => rfl

theorem allCanonical_surface {es : List Expr} (h : ∀ e ∈ es, e.surface.Canonical) :
    Tree.Expr.AllCanonical (allSurface es) := by
  induction es with
  | nil => exact trivial
  | cons e es ih =>
    obtain ⟨he, hes⟩ := List.forall_mem_cons.1 h
    exact ⟨he, ih hes⟩

namespace Answered

variable {scope : Scope} {e : Expr}

/-- Unless an operand is an assignment, the surface of an answer is canonical. -/
theorem canonical (h : e.Answered scope) (hplain : ∀ part ∈ e.parts, part.PlainOperands) :
    e.surface.Canonical := by
  induction h with
  | int _ | bool | string => exact trivial
  | read hx => exact ne_empty_of_writable hx.writable
  | assign hx _ _ _ _ ih =>
    obtain ⟨-, hplain⟩ := List.forall_mem_cons.1 hplain
    exact ⟨ne_empty_of_writable hx.writable, ih hplain⟩
  | @unary row operand _ _ _ ih =>
    obtain ⟨hoperand, hplain⟩ := List.forall_mem_cons.1 hplain
    exact ⟨ih hplain, not_isAssign_surface hoperand, precedence?_surface operand⟩
  | @binary row left right _ _ _ _ _ ihl ihr =>
    obtain ⟨⟨hleft, hright⟩, hplain⟩ := List.forall_mem_cons.1 hplain
    obtain ⟨hlplain, hrplain⟩ := List.forall_mem_append.1 hplain
    refine ⟨ihl hlplain, not_isAssign_surface hleft, ?_, ihr hrplain, not_isAssign_surface hright, ?_⟩
    · simp [precedence?_surface]
    · simp [precedence?_surface]
  | call hf _ _ ih =>
    obtain ⟨-, hplain⟩ := List.forall_mem_cons.1 hplain
    refine ⟨ne_empty_of_writable (writable_of_mem hf), allCanonical_surface fun arg harg => ih arg harg ?_⟩
    exact fun part hpart => hplain part (parts_subset harg hpart)
  | convert hc _ ih =>
    obtain ⟨-, hplain⟩ := List.forall_mem_cons.1 hplain
    exact ⟨ne_empty_of_writable (writable_of_named hc.named.2), ih hplain, trivial⟩

end Answered

end Expr

end Typed

/-! ### Elaborating surfaces -/

namespace Elaboration

open Typing

variable {scope : Scope} {e : Typed.Expr}

/-- A surface expression is the surface of an expression, but for its places. -/
def Renders (t : Tree.Expr) (e : Typed.Expr) : Prop := t.bare = e.surface.bare

/-- The elaborator makes an expression of all that renders it, and finds no issue. -/
def Returns (scope : Scope) (e : Typed.Expr) : Prop :=
  ∀ t, Renders t e → expr scope t = (e, [])

theorem Returns.value {t : Tree.Expr} (h : Returns scope e) (hvoid : e.ty ≠ .void)
    (ht : Renders t e) : requireValue t.span (expr scope t) = (e, []) := by
  rw [h t ht]
  exact requireValue_of_ne_void hvoid

/-- What renders arguments that are returned is accepted for parameters of their types. -/
theorem arguments_of_returns : {es : List Typed.Expr} → {parameters : List Parameter} →
    {ts : List Tree.Expr} → (∀ e ∈ es, Returns scope e) → (∀ e ∈ es, e.ty ≠ .error) →
    es.map (·.ty) = parameters.map (·.ty) → (∀ p ∈ parameters, p.ty ≠ .void) →
    Tree.Expr.allBare ts = Tree.Expr.allBare (Typed.Expr.allSurface es) →
    (exprs scope ts).length = parameters.length ∧
      arguments parameters (exprs scope ts) = (some es, [])
  | [], [], [], _, _, _, _, _ => ⟨rfl, rfl⟩
  | e :: es, p :: parameters, t :: ts, hreturns, herror, htys, hvoid, hts => by
    obtain ⟨hfirst, hothers⟩ := List.forall_mem_cons.1 hreturns
    obtain ⟨hne, herror⟩ := List.forall_mem_cons.1 herror
    obtain ⟨hp, hvoid⟩ := List.forall_mem_cons.1 hvoid
    obtain ⟨hty, htys⟩ : e.ty = p.ty ∧ es.map (·.ty) = parameters.map (·.ty) :=
      List.cons.inj htys
    obtain ⟨ht, hts⟩ := List.cons.inj hts
    obtain ⟨hlength, hrest⟩ := arguments_of_returns hothers herror htys hvoid hts
    have hvalue : (⟨t.span, expr scope t⟩ : Argument).value = (e, []) :=
      hfirst.value (by rwa [hty]) ht
    rw [exprs, arguments, hvalue]
    rw [hty] at hne
    simp [hrest, hty, hne, hlength]

theorem returns_read {x : Variable} (hx : scope.Names x) : Returns scope (.read x) := by
  intro t ht
  cases t with
  | name ident =>
    have hname : ident.name = x.name := (Tree.Ident.mk.inj (Tree.Expr.name.inj ht)).1
    have hne := ne_empty_of_writable hx.writable
    rw [expr, nameUse, hname, if_neg hne, hx.found]
  | _ => cases ht

theorem returns_assign {x : Variable} {value : Typed.Expr} (hx : scope.Names x)
    (hwritable : x.readOnly = false) (hty : value.ty = x.ty) (hvoid : x.ty ≠ .void)
    (h : Returns scope value) : Returns scope (.assign x value) := by
  intro t ht
  cases t with
  | assign target value' =>
    obtain ⟨htarget, hvalue⟩ := Tree.Expr.assign.inj ht
    have hname : target.name = x.name := (Tree.Ident.mk.inj htarget).1
    rw [expr, h.value (by rwa [hty]) hvalue]
    simp [assignment, hname, hx.found, hwritable, hty]
  | _ => cases ht

theorem returns_unary {row : UnaryOperator} {operand : Typed.Expr}
    (hrow : row ∈ UnaryOperator.table) (hty : operand.ty = row.operand)
    (h : Returns scope operand) : Returns scope (.unary row operand) := by
  intro t ht
  cases t with
  | unary op span operand' =>
    obtain ⟨rfl, -, hoperand⟩ := Tree.Expr.unary.inj ht
    have hnamed := (named_of_mem_unary hrow).1
    rw [expr, h.value (by rw [hty]; exact hnamed.ne_void) hoperand]
    simp [unaryUse, hty, hnamed.ne_error, resolveUnary_eq_some_iff.2 ⟨hrow, rfl, rfl⟩]
  | _ => cases ht

theorem returns_binary {row : BinaryOperator} {left right : Typed.Expr}
    (hrow : row ∈ BinaryOperator.table) (hlty : left.ty = row.left) (hrty : right.ty = row.right)
    (hl : Returns scope left) (hr : Returns scope right) :
    Returns scope (.binary left row right) := by
  intro t ht
  cases t with
  | paren opening inner closing =>
    obtain ⟨-, hinner, -⟩ := Tree.Expr.paren.inj ht
    cases inner with
    | binary left' op span right' =>
      obtain ⟨hleft, rfl, -, hright⟩ := Tree.Expr.binary.inj hinner
      obtain ⟨hlnamed, hrnamed, -⟩ := named_of_mem_binary hrow
      rw [expr, expr, hl.value (by rw [hlty]; exact hlnamed.ne_void) hleft,
        hr.value (by rw [hrty]; exact hrnamed.ne_void) hright]
      simp [binaryUse, hlty, hrty, hlnamed.ne_error, hrnamed.ne_error,
        resolveBinary_eq_some_iff.2 ⟨hrow, rfl, rfl, rfl⟩]
    | _ => cases hinner
  | _ => cases ht

theorem returns_call {f : Function} {args : List Typed.Expr} (hf : f ∈ Function.all)
    (htys : args.map (·.ty) = f.parameters.map (·.ty)) (herror : ∀ arg ∈ args, arg.ty ≠ .error)
    (h : ∀ arg ∈ args, Returns scope arg) : Returns scope (.call f args) := by
  intro t ht
  cases t with
  | call callee args' closing =>
    obtain ⟨hcallee, hargs, -⟩ := Tree.Expr.call.inj ht
    have hname : callee.name = f.name := (Tree.Ident.mk.inj hcallee).1
    obtain ⟨hfind, hnone⟩ := ofName?_of_mem hf
    obtain ⟨hlength, harguments⟩ := arguments_of_returns h herror htys
      (fun p hp => (named_of_mem_parameters hf hp).ne_void) hargs
    simp only [expr, callUse, functionUse, hname, hfind, hnone, hlength, harguments, if_true]
  | _ => cases ht

theorem returns_convert {target : Ty} (hc : Converts e.ty target) (h : Returns scope e) :
    Returns scope (.convert target e) := by
  intro t ht
  cases t with
  | call callee args closing =>
    obtain ⟨hcallee, hargs, -⟩ := Tree.Expr.call.inj ht
    have hname : callee.name = target.name := (Tree.Ident.mk.inj hcallee).1
    rcases args with _ | ⟨arg, _ | ⟨other, args⟩⟩
    · cases hargs
    · have hvalue := h.value hc.named.1.ne_void (List.cons.inj hargs).1
      have htarget := Ty.ofName?_eq_some_iff.2 ⟨hc.named.2, rfl⟩
      have hconvertible := convertible_iff.2 (.inr hc)
      simp only [expr, exprs, callUse, hname, htarget, Argument.value, hvalue]
      simp [conversion, hc.named.1.ne_error, hconvertible, hc.ne]
    · cases (List.cons.inj hargs).2
  | _ => cases ht

/-- The elaborator makes an answer again of all that renders it. -/
theorem returns_of_answered (h : e.Answered scope) : Returns scope e := by
  induction h with
  | int _ | bool | string =>
    intro t ht
    cases t <;> cases ht
    rfl
  | read hx => exact returns_read hx
  | assign hx hwritable hty hvoid _ ih => exact returns_assign hx hwritable hty hvoid ih
  | unary hrow hty _ ih => exact returns_unary hrow hty ih
  | binary hrow hlty hrty _ _ ihl ihr => exact returns_binary hrow hlty hrty ihl ihr
  | call hf htys hargs ih => exact returns_call hf htys (fun arg harg => (hargs arg harg).ty_ne_error) ih
  | convert hc _ ih => exact returns_convert hc ih

end Elaboration

end SnippetLang
