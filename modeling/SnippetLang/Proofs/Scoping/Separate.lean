import SnippetLang.Proofs.Lowering.Structured
import SnippetLang.Proofs.Scoping.Lexical

/-!
# Separate declarations

At run time a variable is found by its name and its type alone.  That comes to the same as scoping
when no declaration can be taken for another one: a declared variable shares its cell with none that
is in sight, and one whose declaration may be passed over shares it with none declared before.
-/

namespace SnippetLang

open Typing (Context Sees Types TypesAll Checks ChecksAll)
open Lexical (after)

/-- A variable shares its cell with none of a list. -/
def Variable.Apart (x : Variable) (xs : List Variable) : Prop := ∀ y ∈ xs, y.same x = false

theorem Variable.Apart.mono {x : Variable} {xs ys : List Variable} (h : x.Apart ys)
    (hsub : xs ⊆ ys) : x.Apart xs :=
  fun y hy => h y (hsub hy)

instance (x : Variable) (xs : List Variable) : Decidable (x.Apart xs) :=
  inferInstanceAs (Decidable (∀ y ∈ xs, y.same x = false))

theorem append_subset_append (xs : List Variable) {ys zs : List Variable} (h : ys ⊆ zs) :
    xs ++ ys ⊆ xs ++ zs :=
  List.append_subset.2 ⟨List.subset_append_left xs zs, List.subset_append_of_subset_right xs h⟩

namespace Typed

open Code (exprVariables exprsVariables)

/-! ### Variables in their scopes -/

/-- Every variable of an expression is what its name means. -/
def Expr.InScope (Γ : Context) (e : Expr) : Prop := ∀ x ∈ exprVariables e, Sees Γ x.name x

mutual

/-- A statement is structured, every variable in it is what its name means, and no name is declared
    twice in a scope. -/
def Stmt.InScope : Stmt → Context → Prop
  | .block body, Γ => Stmt.AllInScope body ([] :: Γ)
  | .declare x init, Γ => init.InScope Γ ∧ ∀ y ∈ Γ.headD [], y.name ≠ x.name
  | .expr e, Γ => e.InScope Γ
  | .ifThen condition yes, Γ => condition.InScope Γ ∧ yes.InScope Γ
  | .ifElse condition yes no, Γ => condition.InScope Γ ∧ yes.InScope Γ ∧ no.InScope (after Γ yes)
  | .whileDo condition body, Γ => condition.InScope Γ ∧ body.InScope Γ
  | .doWhile body condition, Γ => body.InScope Γ ∧ condition.InScope (after Γ body)
  | .count x lower upper body, Γ => lower.InScope Γ ∧ upper.InScope Γ ∧ body.InScope ([x] :: Γ)
  | .goto _, _ => False
  | .gotoIf _ _ _, _ => False
  | .label _, _ => False
  | .result _, _ => False

def Stmt.AllInScope : List Stmt → Context → Prop
  | [], _ => True
  | s :: rest, Γ => s.InScope Γ ∧ Stmt.AllInScope rest (after Γ s)

end

/-! ### Declarations that are not taken for one another -/

mutual

/-- The variables that a statement declares, in its own scope and in those that it opens. -/
def Stmt.introduces : Stmt → List Variable
  | .block body => Stmt.allIntroduce body
  | .declare x _ => [x]
  | .ifThen _ yes => yes.introduces
  | .ifElse _ yes no => yes.introduces ++ no.introduces
  | .whileDo _ body => body.introduces
  | .doWhile body _ => body.introduces
  | .count x _ _ body => x :: body.introduces
  | _ => []

def Stmt.allIntroduce : List Stmt → List Variable
  | [] => []
  | s :: rest => s.introduces ++ Stmt.allIntroduce rest

end

mutual

/-- No declaration of a statement is taken for another one, where `used` are the variables declared
    before.  A loop comes back to its body, so its own declarations were made before it too; a
    `while` can pass over its body then, which must declare nothing outside of its own scopes. -/
def Stmt.Separate : Stmt → List Variable → Context → Prop
  | .block body, used, Γ => Stmt.AllSeparate body used ([] :: Γ)
  | .declare x _, _, Γ => x.Apart Γ.flatten
  | .ifThen _ yes, used, Γ => yes.Separate used Γ ∧ ∀ x ∈ yes.declares, x.Apart used
  | .ifElse _ yes no, used, Γ =>
    yes.Separate used Γ ∧ no.Separate (yes.introduces ++ used) (after Γ yes) ∧
      (∀ x ∈ yes.declares, x.Apart used) ∧ ∀ x ∈ no.declares, x.Apart (yes.introduces ++ used)
  | .whileDo _ body, used, Γ => body.Separate (body.introduces ++ used) Γ ∧ body.declares = []
  | .doWhile body _, used, Γ => body.Separate (body.introduces ++ used) Γ
  | .count x _ _ body, used, Γ =>
    x.Apart Γ.flatten ∧ body.Separate (x :: body.introduces ++ used) ([x] :: Γ)
  | _, _, _ => True

def Stmt.AllSeparate : List Stmt → List Variable → Context → Prop
  | [], _, _ => True
  | s :: rest, used, Γ =>
    s.Separate used Γ ∧ Stmt.AllSeparate rest (s.introduces ++ used) (after Γ s)

end

mutual

/-- Whether declarations are separate can be computed. -/
def Stmt.decideSeparate : (s : Stmt) → (used : List Variable) → (Γ : Context) →
    Decidable (s.Separate used Γ)
  | .block body, used, Γ => Stmt.decideAllSeparate body used ([] :: Γ)
  | .declare x _, _, Γ => inferInstanceAs (Decidable (x.Apart Γ.flatten))
  | .expr _, _, _ => .isTrue trivial
  | .ifThen _ yes, used, Γ =>
    have := yes.decideSeparate used Γ
    inferInstanceAs (Decidable (_ ∧ _))
  | .ifElse _ yes no, used, Γ =>
    have := yes.decideSeparate used Γ
    have := no.decideSeparate (yes.introduces ++ used) (after Γ yes)
    inferInstanceAs (Decidable (_ ∧ _ ∧ _ ∧ _))
  | .whileDo _ body, used, Γ =>
    have := body.decideSeparate (body.introduces ++ used) Γ
    inferInstanceAs (Decidable (_ ∧ body.declares = []))
  | .doWhile body _, used, Γ => body.decideSeparate (body.introduces ++ used) Γ
  | .count x _ _ body, used, Γ =>
    have := body.decideSeparate (x :: body.introduces ++ used) ([x] :: Γ)
    inferInstanceAs (Decidable (_ ∧ _))
  | .goto _, _, _ => .isTrue trivial
  | .gotoIf _ _ _, _, _ => .isTrue trivial
  | .label _, _, _ => .isTrue trivial
  | .result _, _, _ => .isTrue trivial

def Stmt.decideAllSeparate : (body : List Stmt) → (used : List Variable) → (Γ : Context) →
    Decidable (Stmt.AllSeparate body used Γ)
  | [], _, _ => .isTrue trivial
  | s :: rest, used, Γ =>
    have := s.decideSeparate used Γ
    have := Stmt.decideAllSeparate rest (s.introduces ++ used) (after Γ s)
    inferInstanceAs (Decidable (_ ∧ _))

end

instance (s : Stmt) (used : List Variable) (Γ : Context) : Decidable (s.Separate used Γ) :=
  s.decideSeparate used Γ

theorem Stmt.declares_subset_introduces : (s : Stmt) → s.declares ⊆ s.introduces
  | .block _ => List.nil_subset _
  | .declare _ _ => List.Subset.refl _
  | .expr _ => List.nil_subset _
  | .ifThen _ yes => yes.declares_subset_introduces
  | .ifElse _ yes no => by
    intro x hx
    rcases List.mem_append.1 hx with hx | hx
    · exact List.mem_append_left _ (yes.declares_subset_introduces hx)
    · exact List.mem_append_right _ (no.declares_subset_introduces hx)
  | .whileDo _ body => body.declares_subset_introduces
  | .doWhile body _ => body.declares_subset_introduces
  | .count _ _ _ _ => List.nil_subset _
  | .goto _ => List.nil_subset _
  | .gotoIf _ _ _ => List.nil_subset _
  | .label _ => List.nil_subset _
  | .result _ => List.nil_subset _

mutual

/-- The fewer variables were declared before, the easier it is to keep declarations separate. -/
theorem Stmt.Separate.mono {used used' : List Variable} (hsub : used' ⊆ used) : (s : Stmt) →
    {Γ : Context} → s.Separate used Γ → s.Separate used' Γ
  | .block body, _, h => Stmt.AllSeparate.mono hsub body h
  | .declare _ _, _, h => h
  | .expr _, _, _ => trivial
  | .ifThen _ yes, _, h => ⟨Stmt.Separate.mono hsub yes h.1, fun x hx => (h.2 x hx).mono hsub⟩
  | .ifElse _ yes no, _, h => by
    obtain ⟨hyes, hno, hfirst, hsecond⟩ := h
    have hsub' := append_subset_append yes.introduces hsub
    exact ⟨Stmt.Separate.mono hsub yes hyes, Stmt.Separate.mono hsub' no hno,
      fun x hx => (hfirst x hx).mono hsub, fun x hx => (hsecond x hx).mono hsub'⟩
  | .whileDo _ body, _, h => ⟨Stmt.Separate.mono (append_subset_append _ hsub) body h.1, h.2⟩
  | .doWhile body _, _, h => Stmt.Separate.mono (append_subset_append _ hsub) body h
  | .count x _ _ body, _, h =>
    ⟨h.1, Stmt.Separate.mono (append_subset_append _ hsub) body h.2⟩
  | .goto _, _, _ => trivial
  | .gotoIf _ _ _, _, _ => trivial
  | .label _, _, _ => trivial
  | .result _, _, _ => trivial

theorem Stmt.AllSeparate.mono {used used' : List Variable} (hsub : used' ⊆ used) :
    (body : List Stmt) → {Γ : Context} → Stmt.AllSeparate body used Γ →
    Stmt.AllSeparate body used' Γ
  | [], _, _ => trivial
  | s :: rest, _, h =>
    ⟨Stmt.Separate.mono hsub s h.1, Stmt.AllSeparate.mono (append_subset_append _ hsub) rest h.2⟩

end

end Typed

/-! ### Clean programs are in scope -/

namespace Lexical

open Typed

theorem after_of_declares_nil {s : Stmt} (h : s.declares = []) (Γ : Context) : after Γ s = Γ := by
  cases Γ with
  | nil => rfl
  | cons level outer => simp [after, h]

theorem after_ifElse (Γ : Context) (condition : Expr) (yes no : Stmt) :
    after (after Γ yes) no = after Γ (.ifElse condition yes no) := by
  cases Γ with
  | nil => rfl
  | cons level outer => simp [after, Stmt.declares]

end Lexical

namespace Typing

open Typed

theorem Sees.name_eq {Γ : Context} {name : String} {x : Variable} (h : Sees Γ name x) :
    x.name = name := by
  induction h with
  | here _ hn => exact hn
  | outside _ _ ih => exact ih

theorem Sees.self {Γ : Context} {name : String} {x : Variable} (h : Sees Γ name x) :
    Sees Γ x.name x := by
  rw [h.name_eq]
  exact h

mutual

theorem Types.inScope {Γ : Context} {e : Tree.Expr} {e' : Expr} {t : Ty} :
    Types Γ e e' t → e'.InScope Γ
  | .int => nofun
  | .bool => nofun
  | .string => nofun
  | .name h => by
    intro x hx
    obtain rfl := List.mem_singleton.1 hx
    exact h.self
  | .assign h _ _ hvalue => by
    refine List.forall_mem_append.2 ⟨hvalue.inScope, ?_⟩
    intro x hx
    obtain rfl := List.mem_singleton.1 hx
    exact h.self
  | .unary _ h => h.inScope
  | .binary _ hl hr => List.forall_mem_append.2 ⟨hl.inScope, hr.inScope⟩
  | .paren h => h.inScope
  | .call _ _ hargs => hargs.inScope
  | .sameType _ _ h => h.inScope
  | .convert _ _ h => h.inScope

theorem TypesAll.inScope {Γ : Context} {es : List Tree.Expr} {es' : List Expr} {ts : List Ty} :
    TypesAll Γ es es' ts → ∀ x ∈ Code.exprsVariables es', Sees Γ x.name x
  | .nil => nofun
  | .cons h hrest => List.forall_mem_append.2 ⟨h.inScope, hrest.inScope⟩

end

mutual

/-- The typed statement of a derivation is in scope, and it leaves the declarations in sight that
    the derivation leaves behind. -/
theorem Checks.inScope {Γ Δ : Context} {s : Tree.Stmt} {s' : Stmt} :
    Checks Γ s s' Δ → s'.InScope Γ ∧ Δ = after Γ s'
  | .block h => ⟨h.inScope, (Lexical.after_of_declares_nil rfl Γ).symm⟩
  | .declare h _ hfresh => ⟨⟨h.inScope, hfresh⟩, rfl⟩
  | .ifThen h hyes => by
    obtain ⟨hs, rfl⟩ := hyes.inScope
    exact ⟨⟨h.inScope, hs⟩, by cases Γ <;> rfl⟩
  | .ifElse h hyes hno => by
    obtain ⟨hs, rfl⟩ := hyes.inScope
    obtain ⟨hs', rfl⟩ := hno.inScope
    exact ⟨⟨h.inScope, hs, hs'⟩, Lexical.after_ifElse Γ _ _ _⟩
  | .whileDo h hbody => by
    obtain ⟨hs, rfl⟩ := hbody.inScope
    exact ⟨⟨h.inScope, hs⟩, by cases Γ <;> rfl⟩
  | .doWhile hbody h => by
    obtain ⟨hs, rfl⟩ := hbody.inScope
    exact ⟨⟨hs, h.inScope⟩, by cases Γ <;> rfl⟩
  | .count hl hu hbody =>
    ⟨⟨hl.inScope, hu.inScope, hbody.inScope.1⟩, (Lexical.after_of_declares_nil rfl Γ).symm⟩
  | .expr h => ⟨h.inScope, (Lexical.after_of_declares_nil rfl Γ).symm⟩

theorem ChecksAll.inScope {Γ Δ : Context} {body : List Tree.Stmt} {body' : List Stmt} :
    ChecksAll Γ body body' Δ → Stmt.AllInScope body' Γ
  | .nil => trivial
  | .cons h hrest => by
    obtain ⟨hs, rfl⟩ := h.inScope
    exact ⟨hs, hrest.inScope⟩

end

end Typing

end SnippetLang
