import SnippetLang.Proofs.Lexing.Lookahead
import SnippetLang.Proofs.Parsing.Spelling
import SnippetLang.Proofs.Typing.Cascades
import SnippetLang.Proofs.Typing.Errors

/-!
# What the elaborator answers

`Answered` lists the typed expressions that the elaborator can answer without an issue in a scope, for
a surface expression that was read from the tokens of a clean source.  It keeps what of the source and
of the checks is still to be seen in the answer: that a name is one a token can have and means the
variable that it stands for, that a number is one a literal can have, and that the types of operands
and arguments fit.  The scope can be any one in which no name means a variable of the error type.
-/

namespace SnippetLang

/-- A token of the kind can be written with nothing wrong. -/
def TokenKind.Writable (kind : TokenKind) : Prop := ∃ text, Lexer.Spelled kind text

/-- All of the tokens, but for ends of files, can be written with nothing wrong. -/
def AllWritable (tokens : List Token) : Prop := ∀ t ∈ tokens, t.kind ≠ .endOfFile → t.kind.Writable

namespace AllWritable

variable {t : Token} {tokens others : List Token}

theorem mono (h : AllWritable tokens) (hsub : others ⊆ tokens) : AllWritable others :=
  fun t ht => h t (hsub ht)

theorem head (h : AllWritable (t :: tokens)) (hkind : t.kind ≠ .endOfFile) : t.kind.Writable :=
  h t List.mem_cons_self hkind

theorem tail (h : AllWritable (t :: tokens)) : AllWritable tokens :=
  h.mono (List.subset_cons_self t tokens)

theorem left (h : AllWritable (tokens ++ others)) : AllWritable tokens :=
  h.mono (List.subset_append_left tokens others)

theorem right (h : AllWritable (tokens ++ others)) : AllWritable others :=
  h.mono (List.subset_append_right tokens others)

end AllWritable

/-- The characters of a name that a token can have are the text of the token. -/
theorem spelled_of_writable {name : String} (h : (TokenKind.ident name).Writable) :
    Lexer.Spelled (.ident name) name.toList := by
  obtain ⟨text, h⟩ := h
  cases h with
  | ident htext hword =>
    rw [String.toList_ofList]
    exact .ident htext hword

theorem ne_empty_of_writable {name : String} (h : (TokenKind.ident name).Writable) : name ≠ "" := by
  rintro rfl
  exact (spelled_of_writable h).ne_nil rfl

/-- A word that is not reserved is a name that a token can have. -/
theorem writable_of_word {name : String} (hstart : name.toList.head?.any Lexer.isWordStart = true)
    (hparts : name.toList.all Lexer.isWordPart = true) (hword : Keyword.ofSpelling? name = none) :
    (TokenKind.ident name).Writable := by
  have hspelled : Lexer.Spelled (.ident (String.ofList name.toList)) name.toList := by
    refine .ident ?_ fun w hw => ?_
    · obtain ⟨c, hc, hstart⟩ := (Option.any_eq_true ..).1 hstart
      obtain ⟨cs, hcs⟩ := List.head?_eq_some_iff.1 hc
      rw [hcs] at hparts ⊢
      exact ⟨c, cs, rfl, hstart, (List.forall_mem_cons.1 (List.all_eq_true.1 hparts)).2⟩
    · have hne := List.find?_eq_none.1 hword w (Lexer.mem_all_keyword w)
      exact hne (beq_iff_eq.2 (String.toList_inj.1 hw.symm))
  rw [String.ofList_toList] at hspelled
  exact ⟨_, hspelled⟩

theorem writable_of_mem {f : Function} (h : f ∈ Function.all) : (TokenKind.ident f.name).Writable := by
  have hword : ∀ f ∈ Function.all, f.name.toList.head?.any Lexer.isWordStart = true ∧
      f.name.toList.all Lexer.isWordPart = true ∧ Keyword.ofSpelling? f.name = none := by
    decide
  obtain ⟨hstart, hparts, hword⟩ := hword f h
  exact writable_of_word hstart hparts hword

theorem writable_of_named {t : Ty} (h : t.Named) : (TokenKind.ident t.name).Writable := by
  rcases h with rfl | rfl | rfl <;> exact writable_of_word rfl rfl rfl

/-! ### Answered expressions -/

/-- A variable of a type that is not the error type, which a name that a token can have means. -/
structure Scope.Names (scope : Scope) (x : Variable) : Prop where
  found : scope.lookup? x.name = some x
  writable : (TokenKind.ident x.name).Writable
  ty_ne_error : x.ty ≠ .error

/-- A typed expression is one that the elaborator can answer in the scope. -/
inductive Typed.Expr.Answered (scope : Scope) : Typed.Expr → Prop where
  | int {n : Int32} : (TokenKind.int n).Writable → Answered scope (.literal (.int n))
  | bool {b : Bool} : Answered scope (.literal (.bool b))
  | string {s : String} : Answered scope (.literal (.string s))
  | read {x : Variable} : scope.Names x → Answered scope (.read x)
  | assign {x : Variable} {value : Typed.Expr} :
      scope.Names x → x.readOnly = false → value.ty = x.ty → x.ty ≠ .void → Answered scope value →
      Answered scope (.assign x value)
  | unary {row : UnaryOperator} {operand : Typed.Expr} :
      row ∈ UnaryOperator.table → operand.ty = row.operand → Answered scope operand →
      Answered scope (.unary row operand)
  | binary {row : BinaryOperator} {left right : Typed.Expr} :
      row ∈ BinaryOperator.table → left.ty = row.left → right.ty = row.right →
      Answered scope left → Answered scope right → Answered scope (.binary left row right)
  | call {f : Function} {args : List Typed.Expr} :
      f ∈ Function.all → args.map (·.ty) = f.parameters.map (·.ty) →
      (∀ arg ∈ args, Answered scope arg) → Answered scope (.call f args)
  | convert {target : Ty} {e : Typed.Expr} :
      Typing.Converts e.ty target → Answered scope e → Answered scope (.convert target e)

open Typing in
/-- An answer is not of the error type. -/
theorem Typed.Expr.Answered.ty_ne_error {scope : Scope} {e : Typed.Expr} (h : e.Answered scope) :
    e.ty ≠ .error := by
  induction h with
  | int _ | bool | string => simp [Typed.Expr.ty, Value.ty]
  | read hx => exact hx.ty_ne_error
  | assign _ _ _ _ _ ih => exact ih
  | unary hrow _ _ _ => exact (named_of_mem_unary hrow).2.ne_error
  | binary hrow _ _ _ _ _ _ => exact (named_of_mem_binary hrow).2.2.ne_error
  | call hf _ _ _ =>
    rcases function_ty hf with hnamed | hvoid
    · exact hnamed.ne_error
    · simp [Typed.Expr.ty, hvoid]
  | convert hc _ _ => exact hc.named.2.ne_error

namespace Elaboration

open Typing

variable {scope : Scope}

/-! ### Where answers come from -/

theorem names_of_lookup? {ident : Tree.Ident} {x : Variable}
    (hident : (TokenKind.ident ident.name).Writable) (hx : scope.lookup? ident.name = some x)
    (hty : x.ty ≠ .error) : scope.Names x := by
  have hname := (Scope.mem_of_lookup? hx).2
  rw [← hname] at hident hx
  exact ⟨hx, hident, hty⟩

/-- Arguments that fit the parameters are answered if all of those that are clean are. -/
theorem exists_arguments : {parameters : List Parameter} → {args : List Argument} →
    args.length = parameters.length → (arguments parameters args).2 = [] →
    (∀ a ∈ args, a.value.2 = [] → a.value.1.Answered scope) →
    ∃ es, arguments parameters args = (some es, []) ∧
      es.map (·.ty) = parameters.map (·.ty) ∧ ∀ e ∈ es, e.Answered scope
  | [], [], _, _, _ => ⟨[], rfl, rfl, nofun⟩
  | [], _ :: _, hlength, _, _ => by simp at hlength
  | _ :: _, [], hlength, _, _ => by simp at hlength
  | p :: parameters, a :: args, hlength, h, hargs => by
    simp only [List.length_cons, Nat.add_right_cancel_iff] at hlength
    obtain ⟨hfound, hstep⟩ := arguments_clean h
    obtain ⟨hfirst, hothers⟩ := List.forall_mem_cons.1 hargs
    have hfirst := hfirst hfound
    obtain ⟨hty, hrest, hstep⟩ := hstep hfirst.ty_ne_error
    obtain ⟨es, heq, htys, hes⟩ := exists_arguments hlength hrest hothers
    refine ⟨a.value.1 :: es, by rw [hstep, heq]; rfl, ?_, List.forall_mem_cons.2 ⟨hfirst, hes⟩⟩
    rw [List.map_cons, hty, htys, List.map_cons]

theorem answered_callUse {callee : Tree.Ident} {span : Span} {args : List Argument}
    (hargs : ∀ a ∈ args, a.value.2 = [] → a.value.1.Answered scope)
    (h : (callUse callee span args).2 = []) : (callUse callee span args).1.Answered scope := by
  rcases callUse_cases callee span args with ⟨target, arg, -, rfl, huse⟩ | huse
  · rw [huse] at h ⊢
    obtain ⟨hfound, hconversion⟩ := List.append_eq_nil_iff.1 h
    have harg := hargs arg List.mem_cons_self hfound
    rcases conversion_clean hconversion harg.ty_ne_error with ⟨-, huse⟩ | ⟨hc, huse⟩
    · rw [huse]
      exact harg
    · rw [huse]
      exact .convert hc harg
  · rw [huse] at h ⊢
    obtain ⟨f, hf, hlength, hfound, hcall⟩ := functionUse_clean h
    obtain ⟨es, heq, htys, hes⟩ := exists_arguments hlength hfound hargs
    rw [hcall es heq]
    exact .call hf htys hes

mutual

/-- Where no name means a variable of the error type, what the elaborator makes without an issue of
    tokens that can be written is answered. -/
theorem answered_expr (hscope : ∀ name x, scope.lookup? name = some x → x.ty ≠ .error) :
    (t : Tree.Expr) → {ts : List Token} → t.Spells ts → AllWritable ts →
    (expr scope t).2 = [] → (expr scope t).1.Answered scope
  | .error span, _, .error _, hts, _ => by
    obtain ⟨_, h⟩ := hts.head nofun
    cases h
  | .int _ _, _, .int _ _, hts, _ => .int (hts.head nofun)
  | .bool _ _, _, _, _, _ => .bool
  | .string _ _, _, _, _, _ => .string
  | .name ident, _, .name _, hts, h => by
    have hident : (TokenKind.ident ident.name).Writable := hts.head nofun
    rw [expr, nameUse, if_neg (ne_empty_of_writable hident)] at h ⊢
    cases hx : scope.lookup? ident.name with
    | none => simp [hx] at h
    | some x => exact .read (names_of_lookup? hident hx (hscope _ x hx))
  | .assign target value, _, .assign _ _ hvalue, hts, h => by
    have htarget : (TokenKind.ident target.name).Writable := hts.head nofun
    simp only [expr, List.append_eq_nil_iff] at h ⊢
    obtain ⟨hclean, hv, heq⟩ := requireValue_clean h.1
    have hvalue := answered_expr hscope value hvalue hts.tail.tail hclean
    rw [heq] at h ⊢
    obtain ⟨x, hx, hwritable, hty, huse⟩ := assignment_clean h.2 hvalue.ty_ne_error
    have hnames := names_of_lookup? htarget hx (hscope _ x hx)
    rw [huse]
    exact .assign hnames hwritable hty (by rwa [← hty]) hvalue
  | .unary op span operand, _, .unary _ _ hoperand, hts, h => by
    simp only [expr, List.append_eq_nil_iff] at h ⊢
    obtain ⟨hclean, -, heq⟩ := requireValue_clean h.1
    have hoperand := answered_expr hscope operand hoperand hts.tail hclean
    rw [heq] at h ⊢
    obtain ⟨row, hrow, huse⟩ := unaryUse_clean h.2 hoperand.ty_ne_error
    obtain ⟨hmem, -, hty⟩ := resolveUnary_eq_some_iff.1 hrow
    rw [huse]
    exact .unary hmem hty.symm hoperand
  | .binary left op span right, _, .binary _ _ hleft hright, hts, h => by
    simp only [expr, List.append_eq_nil_iff] at h ⊢
    obtain ⟨hlclean, -, hleq⟩ := requireValue_clean h.1.1
    obtain ⟨hrclean, -, hreq⟩ := requireValue_clean h.1.2
    have hleft := answered_expr hscope left hleft hts.left hlclean
    have hright := answered_expr hscope right hright hts.right.tail hrclean
    rw [hleq, hreq] at h ⊢
    obtain ⟨row, hrow, huse⟩ :=
      binaryUse_clean h.2 hleft.ty_ne_error hright.ty_ne_error
    obtain ⟨hmem, -, hlty, hrty⟩ := resolveBinary_eq_some_iff.1 hrow
    rw [huse]
    exact .binary hmem hlty.symm hrty.symm hleft hright
  | .paren _ inner _, _, .paren _ _ hinner, hts, h =>
    answered_expr hscope inner hinner hts.tail.left h
  | .call callee args closing, _, .call _ _ _ hargs, hts, h => by
    rw [expr] at h ⊢
    exact answered_callUse (answered_exprs hscope args hargs hts.tail.tail.left) h

/-- The same for each of the arguments of a call. -/
theorem answered_exprs (hscope : ∀ name x, scope.lookup? name = some x → x.ty ≠ .error) :
    (es : List Tree.Expr) → {ts : List Token} → Tree.Expr.SpellArguments es ts → AllWritable ts →
    ∀ a ∈ exprs scope es, a.value.2 = [] → a.value.1.Answered scope
  | [], _, _, _ => nofun
  | e :: es, ts, hes, hts => by
    obtain ⟨us, vs, he, hus, hothers, hvs⟩ : ∃ us vs, e.Spells us ∧ AllWritable us ∧
        Tree.Expr.SpellArguments es vs ∧ AllWritable vs := by
      cases hes with
      | last he => exact ⟨ts, [], he, hts, .none, nofun⟩
      | lastComma _ he => exact ⟨_, [], he, hts.left, .none, nofun⟩
      | cons _ he hothers => exact ⟨_, _, he, hts.left, hothers, hts.right.tail⟩
    intro a ha h
    rcases List.mem_cons.1 ha with rfl | ha
    · obtain ⟨hclean, -, heq⟩ := requireValue_clean h
      have hvalue : (⟨e.span, expr scope e⟩ : Argument).value = expr scope e := heq
      rw [hvalue]
      exact answered_expr hscope e he hus hclean
    · exact answered_exprs hscope es hothers hvs a ha h

end

end Elaboration

end SnippetLang
