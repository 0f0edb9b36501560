import SnippetLang.Proofs.Lowering.Layout
import SnippetLang.Proofs.Typing.Acceptance

/-!
# Executable programs

What evaluators rely on in a flat program: every statement is well typed, and every jump goes to a
label that the program marks.  Lowering makes such a program of any well-typed statement that does
not jump itself, and snippets without issues are of that kind.
-/

namespace SnippetLang

namespace Typed

/-- A statement of a flat program is well typed, and jumps to marked labels only. -/
inductive Stmt.Executable (program : List Stmt) : Stmt → Prop where
  | declare {x : Variable} {init : Expr} :
      x.ty.Named → init.ty = x.ty → init.WellTyped → Executable program (.declare x init)
  | expr {e : Expr} : e.WellTyped → Executable program (.expr e)
  | goto {l : JumpLabel} : .label l ∈ program → Executable program (.goto l)
  | gotoIf {l : JumpLabel} {condition : Expr} {jumpIf : Bool} :
      .label l ∈ program → condition.ty = .bool → condition.WellTyped →
      Executable program (.gotoIf l condition jumpIf)
  | label {l : JumpLabel} : Executable program (.label l)

/-- All statements of a piece of code are executable in a program. -/
def ExecutableIn (program code : List Stmt) : Prop := ∀ s ∈ code, s.Executable program

namespace ExecutableIn

variable {program p q : List Stmt} {s : Stmt}

theorem nil : ExecutableIn program [] := fun _ h => nomatch h

theorem cons (hs : s.Executable program) (hp : ExecutableIn program p) :
    ExecutableIn program (s :: p) := List.forall_mem_cons.2 ⟨hs, hp⟩

theorem append (hp : ExecutableIn program p) (hq : ExecutableIn program q) :
    ExecutableIn program (p ++ q) := List.forall_mem_append.2 ⟨hp, hq⟩

end ExecutableIn

/-! ### Lowered statements -/

theorem withinBound_wellTyped {x bound : Variable} (hx : x.ty = .int) (hbound : bound.ty = .int) :
    (withinBound x bound).WellTyped := by
  have hread {y : Variable} (hy : y.ty = .int) : (Expr.read y).WellTyped := .read (.inr (.inl hy))
  exact .binary (by decide) hx hbound (hread hx) (hread hbound)

theorem increment_wellTyped {x : Variable} (hx : x.ty = .int) : (increment x).WellTyped := by
  have hread : (Expr.read x).WellTyped := .read (.inr (.inl hx))
  have hone : (Expr.literal (.int 1)).WellTyped := .literal (.inr (.inl rfl))
  exact .assign (.inr (.inl hx)) hx.symm (.binary (by decide) hx rfl hread hone)

section

variable {program : List Stmt}

mutual

/-- The lowered form of a well-typed statement is executable in every program that contains it. -/
theorem executable_lowerFrom : (s : Stmt) → s.WellTyped → s.Structured → (c : Counters) →
    (s.lowerFrom c).1 ⊆ program → ExecutableIn program (s.lowerFrom c).1
  | .block body, .block h, hs, c, hsub => executable_lowerAllFrom body h hs c hsub
  | .declare x init, .declare hx hty hinit, _, _, _ => .cons (.declare hx hty hinit) .nil
  | .expr e, .expr he, _, _, _ => .cons (.expr he) .nil
  | .ifThen e yes, .ifThen hty he hyes, hs, c, hsub => by
    rw [lowerFrom_ifThen] at hsub ⊢
    simp only [List.cons_subset, List.append_subset] at hsub
    obtain ⟨-, hbody, hdone, -⟩ := hsub
    exact .cons (.gotoIf hdone hty he) <|
      (executable_lowerFrom yes hyes hs _ hbody).append (.cons .label .nil)
  | .ifElse e yes no, .ifElse hty he hyes hno, hs, c, hsub => by
    rw [lowerFrom_ifElse] at hsub ⊢
    simp only [List.cons_subset, List.append_subset] at hsub
    obtain ⟨-, hfirst, -, hother, hsecond, hdone, -⟩ := hsub
    exact .cons (.gotoIf hother hty he) <|
      (executable_lowerFrom yes hyes hs.1 _ hfirst).append <|
        .cons (.goto hdone) <| .cons .label <|
          (executable_lowerFrom no hno hs.2 _ hsecond).append (.cons .label .nil)
  | .whileDo e body, .whileDo hty he hbody, hs, c, hsub => by
    rw [lowerFrom_whileDo] at hsub ⊢
    simp only [List.cons_subset, List.append_subset] at hsub
    obtain ⟨hagain, -, hcode, -, hdone, -⟩ := hsub
    exact .cons .label <| .cons (.gotoIf hdone hty he) <|
      (executable_lowerFrom body hbody hs _ hcode).append (.cons (.goto hagain) (.cons .label .nil))
  | .doWhile body e, .doWhile hbody hty he, hs, c, hsub => by
    rw [lowerFrom_doWhile] at hsub ⊢
    simp only [List.cons_subset, List.append_subset] at hsub
    obtain ⟨hagain, hcode, -⟩ := hsub
    exact .cons .label <| (executable_lowerFrom body hbody hs _ hcode).append <|
      .cons (.gotoIf hagain hty he) (.cons .label .nil)
  | .count x lower upper body, .count hx hl hu hlower hupper hbody, hs, c, hsub => by
    rw [lowerFrom_count, countingCode] at hsub ⊢
    simp only [List.cons_subset, List.append_subset] at hsub
    obtain ⟨-, -, hagain, -, hcode, -, -, hdone, -⟩ := hsub
    have hbound : c.bound.ty = .int := rfl
    exact .cons (.declare (.inr (.inl hx)) (hl.trans hx.symm) hlower) <|
      .cons (.declare (.inr (.inl hbound)) hu hupper) <| .cons .label <|
        .cons (.gotoIf hdone rfl (withinBound_wellTyped hx hbound)) <|
          (executable_lowerFrom body hbody hs _ hcode).append <|
            .cons (.expr (increment_wellTyped hx)) (.cons (.goto hagain) (.cons .label .nil))

theorem executable_lowerAllFrom : (body : List Stmt) → (∀ s ∈ body, s.WellTyped) →
    Stmt.AllStructured body → (c : Counters) → (Stmt.lowerAllFrom c body).1 ⊆ program →
    ExecutableIn program (Stmt.lowerAllFrom c body).1
  | [], _, _, _, _ => .nil
  | s :: rest, h, hs, c, hsub => by
    rw [lowerAllFrom_cons] at hsub ⊢
    obtain ⟨hfirst, hothers⟩ := List.append_subset.1 hsub
    obtain ⟨hhead, htail⟩ := List.forall_mem_cons.1 h
    exact (executable_lowerFrom s hhead hs.1 c hfirst).append
      (executable_lowerAllFrom rest htail hs.2 _ hothers)

end

end

end Typed

/-! ### Snippets -/

namespace Typing

open Typed

mutual

theorem Checks.structured {Γ Δ : Context} {s : Tree.Stmt} {s' : Stmt} :
    Checks Γ s s' Δ → s'.Structured
  | .block h => h.structured
  | .declare _ _ _ => trivial
  | .ifThen _ hyes => hyes.structured
  | .ifElse _ hyes hno => ⟨hyes.structured, hno.structured⟩
  | .whileDo _ hbody => hbody.structured
  | .doWhile hbody _ => hbody.structured
  | .count _ _ hbody => hbody.structured
  | .expr _ => trivial

theorem ChecksAll.structured {Γ Δ : Context} {body : List Tree.Stmt} {body' : List Stmt} :
    ChecksAll Γ body body' Δ → Stmt.AllStructured body'
  | .nil => trivial
  | .cons h hrest => ⟨h.structured, hrest.structured⟩

end

end Typing

namespace Snippet.Clean

variable {s : Snippet}

theorem structured (h : s.Clean) : s.statement.Structured := by
  cases h with
  | first h => exact (checksAll_within Typing.wellFormed_nil h).2.structured
  | next hprevious h => exact (checksAll_within hprevious.wellFormed h).2.structured

/-- The flat program of a clean snippet is executable. -/
theorem executable (h : s.Clean) : Typed.ExecutableIn s.lowered s.lowered :=
  Typed.executable_lowerFrom s.statement h.wellTyped h.structured _ (List.Subset.refl _)

end Snippet.Clean

end SnippetLang
