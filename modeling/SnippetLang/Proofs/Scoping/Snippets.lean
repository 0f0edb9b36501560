import SnippetLang.Proofs.Lowering.Meaning
import SnippetLang.Proofs.Parsing.Names
import SnippetLang.Proofs.Scoping.Equivalence
import SnippetLang.Proofs.Sessions.Schedules

/-!
# Scoping of snippets

Evaluating a snippet that starts a chain is running it with lexical scoping, if its declarations are
separate.  If they are not, it need not be: a declaration in a block can change a read-only variable
around it.
-/

namespace SnippetLang

open Typing (Context Sees Checks ChecksAll)
open Lexical (after)

/-! ### No hidden variables -/

namespace Typing

open Typed

mutual

/-- The variables that a derivation declares have the names that its tree declares. -/
theorem Checks.introduces {p : String → Prop} {Γ Δ : Context} {s : Tree.Stmt} {s' : Stmt} :
    Checks Γ s s' Δ → s.Names p → ∀ x ∈ s'.introduces, p x.name
  | .block h, hs => h.introduces hs
  | .declare _ _ _, hs => by
    intro x hx
    obtain rfl := List.mem_singleton.1 hx
    exact hs
  | .ifThen _ hyes, hs => hyes.introduces hs
  | .ifElse _ hyes hno, hs => List.forall_mem_append.2 ⟨hyes.introduces hs.1, hno.introduces hs.2⟩
  | .whileDo _ hbody, hs => hbody.introduces hs
  | .doWhile hbody _, hs => hbody.introduces hs
  | .count _ _ hbody, hs => List.forall_mem_cons.2 ⟨hs.1, hbody.introduces hs.2⟩
  | .expr _, _ => nofun

theorem ChecksAll.introduces {p : String → Prop} {Γ Δ : Context} {body : List Tree.Stmt}
    {body' : List Stmt} : ChecksAll Γ body body' Δ → Tree.Stmt.AllNames p body →
    ∀ x ∈ Stmt.allIntroduce body', p x.name
  | .nil, _ => nofun
  | .cons h hrest, hs => List.forall_mem_append.2 ⟨h.introduces hs.1, hrest.introduces hs.2⟩

end

/-- What a derivation leaves in sight was in sight before or is declared by its statements. -/
theorem ChecksAll.flatten_subset {Γ Δ : Context} {body : List Tree.Stmt} {body' : List Stmt}
    (h : ChecksAll Γ body body' Δ) : Δ.flatten ⊆ Stmt.allIntroduce body' ++ Γ.flatten := by
  induction body generalizing Γ body' with
  | nil =>
    cases h
    exact List.Subset.refl _
  | cons s rest ih =>
    cases h with
    | @cons _ _ _ _ _ s' _ h hrest =>
      obtain ⟨-, rfl⟩ := h.inScope
      intro x hx
      rcases List.mem_append.1 (ih hrest hx) with hx | hx
      · exact List.mem_append_left _ (List.mem_append_right _ hx)
      · rcases List.mem_append.1 (Lexical.flatten_after_subset Γ s' hx) with hx | hx
        · exact List.mem_append_left _ (List.mem_append_left _ hx)
        · exact List.mem_append_right _ hx

end Typing

namespace Typed

variable {Γ : Context}

theorem Expr.InScope.visible {e : Expr} (h : e.InScope Γ) (hΓ : ∀ x ∈ Γ.flatten, x.Visible) :
    e.Visible :=
  fun x hx => hΓ x (Lexical.mem_flatten_of_sees (h x hx))

theorem visible_after {s : Stmt} (hΓ : ∀ x ∈ Γ.flatten, x.Visible)
    (hs : ∀ x ∈ s.introduces, x.Visible) : ∀ x ∈ (after Γ s).flatten, x.Visible := by
  intro x hx
  rcases List.mem_append.1 (Lexical.flatten_after_subset Γ s hx) with hx | hx
  · exact hs x hx
  · exact hΓ x hx

mutual

/-- A statement in scope mentions only variables in sight and those that it declares. -/
theorem Stmt.InScope.visible : (s : Stmt) → {Γ : Context} → s.InScope Γ →
    (∀ x ∈ Γ.flatten, x.Visible) → (∀ x ∈ s.introduces, x.Visible) → s.Visible
  | .block body, _, h, hΓ, hs => Stmt.AllInScope.visible body h hΓ hs
  | .declare x _, _, h, hΓ, hs => ⟨hs x (List.mem_singleton_self x), h.1.visible hΓ⟩
  | .expr _, _, h, hΓ, _ => Expr.InScope.visible h hΓ
  | .ifThen _ yes, _, h, hΓ, hs => ⟨h.1.visible hΓ, Stmt.InScope.visible yes h.2 hΓ hs⟩
  | .ifElse _ yes no, _, h, hΓ, hs => by
    obtain ⟨hyes, hno⟩ := List.forall_mem_append.1 hs
    exact ⟨h.1.visible hΓ, Stmt.InScope.visible yes h.2.1 hΓ hyes,
      Stmt.InScope.visible no h.2.2 (visible_after hΓ hyes) hno⟩
  | .whileDo _ body, _, h, hΓ, hs => ⟨h.1.visible hΓ, Stmt.InScope.visible body h.2 hΓ hs⟩
  | .doWhile body _, _, h, hΓ, hs =>
    ⟨Stmt.InScope.visible body h.1 hΓ hs, h.2.visible (visible_after hΓ hs)⟩
  | .count x _ _ body, _, h, hΓ, hs => by
    obtain ⟨hx, hbody⟩ := List.forall_mem_cons.1 hs
    exact ⟨hx, h.1.visible hΓ, h.2.1.visible hΓ,
      Stmt.InScope.visible body h.2.2 (List.forall_mem_cons.2 ⟨hx, hΓ⟩) hbody⟩

theorem Stmt.AllInScope.visible : (body : List Stmt) → {Γ : Context} → Stmt.AllInScope body Γ →
    (∀ x ∈ Γ.flatten, x.Visible) → (∀ x ∈ Stmt.allIntroduce body, x.Visible) →
    Stmt.AllVisible body
  | [], _, _, _, _ => trivial
  | s :: rest, _, h, hΓ, hs => by
    obtain ⟨hfirst, hrest⟩ := List.forall_mem_append.1 hs
    exact ⟨Stmt.InScope.visible s h.1 hΓ hfirst,
      Stmt.AllInScope.visible rest h.2 (visible_after hΓ hfirst) hrest⟩

end

end Typed

/-! ### Runs of whole programs -/

/-- The value of a run, or the error that it ended in. -/
def Outcome.answer : Outcome → Except RunError Value
  | .ok v _ => .ok v
  | .error error _ => .error error

namespace Lexical

open Typed

variable {program : Stmt} {console : Console}

theorem mirrors_start (console : Console) : Mirrors [] [] ⟨[], console⟩ ⟨Bindings.empty, console⟩ :=
  ⟨rfl, .nil, nofun, fun _ _ => rfl⟩

theorem fits_start (hscope : program.InScope []) (hsep : program.Separate [] []) :
    Fits [] [] program :=
  ⟨hscope, hsep, trivial, List.nil_subset _⟩

theorem Beside.shown {used : List Variable} {Γ : Context} {a : Answer Value}
    {o : Outcome} (h : Beside (Mirrors used Γ) a o) :
    (a.1, a.2.console) = (o.answer, o.store.console) := by
  cases h with
  | ok hm => rw [hm.console]; rfl
  | error hconsole => rw [hconsole]; rfl

/-- A separate program that runs to an outcome is answered by the interpreter. -/
theorem interpret_of_runs (hscope : program.InScope []) (hsep : program.Separate [] [])
    {o : Outcome} (h : Runs program .void ⟨Bindings.empty, console⟩ o) :
    ∃ k, interpret program console k = some (o.answer, o.store.console) := by
  obtain ⟨k, a, ha, hbeside⟩ := run_of_runs h (fits_start hscope hsep) (mirrors_start console)
  refine ⟨k, ?_⟩
  rw [interpret, ha]
  exact congrArg some hbeside.shown

/-- A separate program that the interpreter answers runs to an outcome. -/
theorem runs_of_interpret (hscope : program.InScope []) (hsep : program.Separate [] []) {k : Nat}
    {answer : Except RunError Value × Console} (h : interpret program console k = some answer) :
    ∃ o, Runs program .void ⟨Bindings.empty, console⟩ o ∧ answer = (o.answer, o.store.console) := by
  obtain ⟨a, ha, rfl⟩ := Option.map_eq_some_iff.1 h
  have hfits := fits_start hscope hsep
  obtain ⟨o, ho⟩ := runs_of_run k program hfits (mirrors_start console) ha
  exact ⟨o, ho, (beside_of_run ha ho hfits (mirrors_start console)).shown⟩

end Lexical

theorem Outcome.Alike.shown {o o' : Outcome} (h : o.Alike o') :
    (o.answer, o.store.console) = (o'.answer, o'.store.console) := by
  cases h with
  | ok h => exact congrArg _ h.console
  | error h => exact congrArg _ h.console

theorem Outcome.Indistinguishable.shown {o o' : Outcome} (h : o.Indistinguishable o') :
    (o.answer, o.store.console) = (o'.answer, o'.store.console) := by
  cases h with
  | ok hconsole _ => exact congrArg _ hconsole
  | error hconsole => exact congrArg _ hconsole

namespace Snippet

variable {source : String} {console : Console}

theorem inScope_first (h : (first source).issues = []) : (first source).statement.InScope [] :=
  (checksAll_within Typing.wellFormed_nil h).2.inScope

/-- A snippet mentions and declares no hidden variable if there is none in sight. -/
theorem visible_within {outer : Context} (hΓ : Typing.WellFormed outer)
    (houter : ∀ x ∈ outer.flatten, x.Visible) (h : (within outer source).issues = []) :
    (within outer source).statement.Visible ∧
      ∀ x ∈ ((within outer source).declared :: outer).flatten, x.Visible := by
  have hchecks := (checksAll_within hΓ h).2
  have hintroduced : ∀ x ∈ Typed.Stmt.allIntroduce (within outer source).statements, x.Visible := by
    intro x hx
    rcases hchecks.introduces (names_of_parse source) x hx with hempty | ⟨c, hc, hstart⟩
    · exact Variable.visible_of_head (by simp [hempty])
    · apply Variable.visible_of_head
      rw [Option.mem_def.1 hc]
      intro heq
      obtain rfl := Option.some.inj heq
      revert hstart
      decide
  have hinScope : Typed.Stmt.AllInScope (within outer source).statements ([] :: outer) :=
    hchecks.inScope
  constructor
  · exact Typed.Stmt.AllInScope.visible _ hinScope houter hintroduced
  · intro x hx
    rcases List.mem_append.1 (hchecks.flatten_subset hx) with hx | hx
    · exact hintroduced x hx
    · exact houter x hx

/-- No program mentions a hidden variable. -/
theorem visible_first (h : (first source).issues = []) : (first source).statement.Visible :=
  (visible_within Typing.wellFormed_nil nofun h).1

/-- Neither does any snippet of a clean chain. -/
theorem Clean.visible {s : Snippet} (h : s.Clean) :
    s.statement.Visible ∧ ∀ x ∈ (s.declared :: s.enclosing).flatten, x.Visible := by
  induction h with
  | first h => exact visible_within Typing.wellFormed_nil nofun h
  | next hprevious h ih => exact visible_within hprevious.wellFormed ih.2 h

/-- A walk through a snippet without issues ends exactly if its statement runs to an outcome. -/
theorem treeWalk_iff_runs {s : Snippet} (h : s.issues = []) (hs : s.statement.Structured)
    (hv : s.statement.Visible) (σ : Store) :
    (∀ n a, s.evaluate .treeWalk σ n = some a → ∃ o o', a = .ended o ∧
      Typed.Runs s.statement .void σ o' ∧ o'.Alike o) ∧
    ∀ o', Typed.Runs s.statement .void σ o' → ∃ n o,
      s.evaluate .treeWalk σ n = some (.ended o) ∧ o'.Alike o := by
  constructor
  · intro n a ha
    rw [evaluate_treeWalk_of_issues h] at ha
    obtain ⟨o, ho, rfl⟩ := Option.map_eq_some_iff.1 ha
    obtain ⟨o', hruns, halike⟩ :=
      Typed.runs_of_endsWith_beside hs hv ⟨rfl, fun _ _ => rfl⟩ ⟨n, ho⟩
    exact ⟨o, o', rfl, hruns, halike⟩
  · intro o' hruns
    obtain ⟨o, ⟨n, hn⟩, halike⟩ := Typed.endsWith_of_runs hs hv hruns
    refine ⟨n, o, ?_, halike⟩
    rw [evaluate_treeWalk_of_issues h]
    exact congrArg (Option.map Evaluation.ended) hn

theorem evaluate_treeWalk_iff_runs (h : (first source).issues = []) (σ : Store) :
    (∀ n a, (first source).evaluate .treeWalk σ n = some a → ∃ o o', a = .ended o ∧
      Typed.Runs (first source).statement .void σ o' ∧ o'.Alike o) ∧
    ∀ o', Typed.Runs (first source).statement .void σ o' → ∃ n o,
      (first source).evaluate .treeWalk σ n = some (.ended o) ∧ o'.Alike o :=
  treeWalk_iff_runs h (Clean.first h).structured (visible_first h) σ

/-- On bindings with values of their types, an evaluation shows what one in the other way shows. -/
theorem shown_of_evaluate (h : (first source).issues = [])
    (hfits : (first source).slots.length ≤ 2147483648) {backend : Backend} {n : Nat}
    {a : Evaluation} (ha : (first source).evaluate backend ⟨Bindings.empty, console⟩ n = some a)
    (other : Backend) : ∃ m o o', a = .ended o ∧
      (first source).evaluate other ⟨Bindings.empty, console⟩ m = some (.ended o') ∧
      (o.answer, o.store.console) = (o'.answer, o'.store.console) := by
  have hσ : Store.Typed ⟨Bindings.empty, console⟩ := ⟨nofun, nofun⟩
  obtain ⟨m, o, o', rfl, ho', hsame, -⟩ :=
    (Clean.first h).evaluate_congr hfits hσ hσ ⟨rfl, fun _ => rfl⟩ ha other
  exact ⟨m, o, o', rfl, ho', hsame.shown⟩

/-- A snippet without issues that starts a chain and keeps its declarations separate is evaluated
    with lexical scoping.  Either way of evaluating it from empty bindings ends exactly if the
    lexical interpreter gives an answer, and with the same value or error and the same console.
    Compiling wants the variables to fit into slots. -/
theorem evaluate_lexical (h : (first source).issues = [])
    (hsep : (first source).statement.Separate [] []) (backend : Backend)
    (hfits : backend = .compiled → (first source).slots.length ≤ 2147483648) (console : Console) :
    (∀ n a, (first source).evaluate backend ⟨Bindings.empty, console⟩ n = some a →
      ∃ k o, a = .ended o ∧ Lexical.interpret (first source).statement console k =
        some (o.answer, o.store.console)) ∧
    ∀ k answer, Lexical.interpret (first source).statement console k = some answer →
      ∃ n o, (first source).evaluate backend ⟨Bindings.empty, console⟩ n = some (.ended o) ∧
        answer = (o.answer, o.store.console) := by
  obtain ⟨hruns, hends⟩ := evaluate_treeWalk_iff_runs h ⟨Bindings.empty, console⟩
  have hscope := inScope_first h
  constructor
  · intro n a ha
    cases backend with
    | treeWalk =>
      obtain ⟨o, o', rfl, ho', halike⟩ := hruns n a ha
      obtain ⟨k, hk⟩ := Lexical.interpret_of_runs hscope hsep ho'
      exact ⟨k, o, rfl, hk.trans (congrArg some halike.shown)⟩
    | compiled =>
      obtain ⟨m, o, o', rfl, ho', hshown⟩ := shown_of_evaluate h (hfits rfl) ha .treeWalk
      obtain ⟨_, o'', heq, hruns', halike⟩ := hruns m _ ho'
      cases heq
      obtain ⟨k, hk⟩ := Lexical.interpret_of_runs hscope hsep hruns'
      exact ⟨k, o, rfl, hk.trans (congrArg some (halike.shown.trans hshown.symm))⟩
  · intro k answer hk
    obtain ⟨o', ho', rfl⟩ := Lexical.runs_of_interpret hscope hsep hk
    obtain ⟨n, o, hn, halike⟩ := hends o' ho'
    cases backend with
    | treeWalk => exact ⟨n, o, hn, halike.shown⟩
    | compiled =>
      obtain ⟨m, _, o'', heq, ho'', hshown⟩ := shown_of_evaluate h (hfits rfl) hn .compiled
      cases heq
      exact ⟨m, o'', ho'', halike.shown.trans hshown⟩

/-- The `a` of another type in the block leaves the outer one alone, and the declaration of `b` that
    is passed over reads as zero. -/
theorem evaluate_lexical_shadowed :
    let s := first
      "var a = 2 { var a = true print(string(a)) } if a > 2 var b = 7 for i = 1 to a b = b + i b"
    let σ : Store := ⟨Bindings.empty, Console.start [] fun _ => 0⟩
    ∃ n o, s.evaluate .compiled σ n = some (.ended o) ∧ o.answer = .ok (.int 3) ∧
      o.store.console.output = "true\n" := by
  intro s σ
  have h : s.issues = [] := by decide +kernel
  have hsep : s.statement.Separate [] [] := by decide +kernel
  have hfits : s.slots.length ≤ 2147483648 := by decide +kernel
  obtain ⟨-, hends⟩ := evaluate_lexical h hsep .compiled (fun _ => hfits) σ.console
  have hrun : Lexical.interpret s.statement σ.console 20 =
      some (.ok (.int 3), σ.console.writeLine "true") := by cbv
  obtain ⟨n, o, hn, hanswer⟩ := hends 20 _ hrun
  obtain ⟨hvalue, hconsole⟩ := Prod.mk.inj hanswer
  refine ⟨n, o, hn, hvalue.symm, ?_⟩
  rw [← hconsole]
  rfl

/-- With lexical scoping the read-only `a` keeps its value, but either way of evaluating changes
    it. -/
theorem evaluate_lexical_fails :
    let s := first "let a = 1 { var a = 2 a = 3 } a"
    let console := Console.start [] fun _ => 0
    s.issues = [] ∧
      (∃ k, Lexical.interpret s.statement console k = some (.ok (.int 1), console)) ∧
      ∀ backend, ∃ n τ, s.evaluate backend ⟨Bindings.empty, console⟩ n =
        some (.ended (.ok (.int 3) τ)) := by
  refine ⟨by decide +kernel, ⟨20, by cbv⟩, fun backend => ?_⟩
  cases backend with
  | treeWalk => exact ⟨20, _, by cbv⟩
  | compiled => exact ⟨60, _, by cbv⟩

end Snippet

end SnippetLang
