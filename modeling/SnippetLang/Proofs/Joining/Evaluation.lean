import SnippetLang.Proofs.Joining.Units

/-!
# Evaluating joined snippets

Walking through a snippet and then through one that continues it is walking through the two joined.
The programs that are walked differ: joined, the labels and the hidden bounds of the second snippet
are numbered on from those of the first, and apart they start again, so that the second snippet
finds hidden variables of the first one bound.  Both walks are compared with the structured
statements, which know nothing of labels or hidden variables.

One difference stays.  The second snippet on its own starts without a last value and joined with the
last value of the first one, so its value is the same only if it executes a declaration or an
expression.
-/

namespace SnippetLang

namespace Typed

/-! ### The last value -/

/-- The statement at an index is a declaration or an expression, which gives the walk a new last
    value. -/
def SetsValue (program : List Stmt) (i : Nat) : Prop :=
  (∃ x init, program[i]? = some (.declare x init)) ∨ ∃ e, program[i]? = some (.expr e)

/-- From a state, a walk gets to a declaration or an expression. -/
def Executes (program : List Stmt) (state : Walk.Place × Store) : Prop :=
  ∃ p σ, Reaches (Walk.step program) state (p, σ) ∧ SetsValue program p.index

namespace Walk

variable {program : List Stmt} {i : Nat} {σ : Store}

theorem step_of_setsValue (h : SetsValue program i) (u w : Value) :
    step program (⟨i, u⟩, σ) = step program (⟨i, w⟩, σ) := by
  rcases h with ⟨x, init, hs⟩ | ⟨e, hs⟩
  · simp only [step, hs, execute]
  · simp only [step, hs, execute]

/-- A step that sets no value hands the last value on or ends the walk. -/
inductive HandsOn (program : List Stmt) (i : Nat) (σ : Store) : Prop where
  | running (j : Nat) (τ : Store) :
    (∀ u, step program (⟨i, u⟩, σ) = .running (⟨j, u⟩, τ)) → HandsOn program i σ
  | error (error : RunError) (τ : Store) :
    (∀ u, step program (⟨i, u⟩, σ) = .finished (.error error τ)) → HandsOn program i σ
  | done : (∀ u, step program (⟨i, u⟩, σ) = .finished (.ok u σ)) → HandsOn program i σ

theorem handsOn_jump {s : Stmt} {l : JumpLabel} {τ : Store} (hs : program[i]? = some s)
    (h : ∀ u, execute program ⟨i, u⟩ s σ = jump program l u τ) : HandsOn program i σ := by
  cases hl : labelTarget? l program with
  | some j => exact .running j τ fun u => step_of_execute_ok hs (by rw [h, jump, hl]; rfl)
  | none => exact .error _ τ fun u => step_of_execute_error hs (by rw [h, jump, hl]; rfl)

theorem handsOn_of_not_setsValue (h : ¬ SetsValue program i) : HandsOn program i σ := by
  cases hs : program[i]? with
  | none => exact .done fun u => by simp only [step, hs]
  | some s =>
    cases s with
    | declare x init => exact absurd (.inl ⟨x, init, hs⟩) h
    | expr e => exact absurd (.inr ⟨e, hs⟩) h
    | label l => exact .running (i + 1) σ fun u => step_label hs
    | goto l => exact handsOn_jump hs fun _ => rfl
    | gotoIf l condition jumpIf =>
      cases hc : test condition σ with
      | error error τ => exact .error error τ fun u => step_gotoIf_error hs hc
      | ok b τ =>
        by_cases hb : b = jumpIf
        · subst hb
          have hjump : ∀ u, execute program ⟨i, u⟩ (.gotoIf l condition b) σ =
              jump program l u τ := fun u => by
            simp only [execute_gotoIf, bind, EStateM.bind, hc, if_true]
          exact handsOn_jump hs hjump
        · exact .running (i + 1) τ fun u => step_gotoIf_pass hs hc hb
    | _ => exact .error _ σ fun u => step_of_execute_error hs rfl

theorem executes_of_step {j : Nat} {u : Value} {τ : Store}
    (h : step program (⟨i, u⟩, σ) = .running (⟨j, u⟩, τ)) (hset : ¬ SetsValue program i) :
    Executes program (⟨i, u⟩, σ) ↔ Executes program (⟨j, u⟩, τ) := by
  constructor
  · rintro ⟨p, ρ, ⟨k, hk⟩, hp⟩
    cases hk with
    | refl => exact absurd hp hset
    | @head k _ t _ hstep hrest =>
      rw [h] at hstep
      cases hstep
      exact ⟨p, ρ, ⟨k, hrest⟩, hp⟩
  · rintro ⟨p, ρ, ⟨k, hk⟩, hp⟩
    exact ⟨p, ρ, ⟨k + 1, .head h hk⟩, hp⟩

/-- A state that a walk does not leave executes something only if its statement sets a value. -/
theorem not_executes_of_finished {u : Value} {o : Outcome}
    (h : step program (⟨i, u⟩, σ) = .finished o) (hset : ¬ SetsValue program i) :
    ¬ Executes program (⟨i, u⟩, σ) := by
  rintro ⟨p, ρ, ⟨k, hk⟩, hp⟩
  obtain ⟨-, hsame⟩ := hk.eq_of_finished h
  cases hsame
  exact hset hp

end Walk

/-- Two ends differ only in that one last value stands for another, and that only if no value was
    set. -/
inductive Replaced (executes : Prop) (u w : Value) : Outcome → Outcome → Prop where
  | error {error : RunError} {τ : Store} :
      Replaced executes u w (.error error τ) (.error error τ)
  | set {v : Value} {τ : Store} : executes → Replaced executes u w (.ok v τ) (.ok v τ)
  | kept {τ : Store} : ¬ executes → Replaced executes u w (.ok u τ) (.ok w τ)

/-- A walk that begins with another last value ends after as many steps, and with a value that
    differs only if the walk sets none. -/
theorem replaced_of_walk {program : List Stmt} (w : Value) {n i : Nat} {u : Value} {σ : Store}
    {o : Outcome} (h : runFor (Walk.step program) n (⟨i, u⟩, σ) = some o) :
    ∃ o', runFor (Walk.step program) n (⟨i, w⟩, σ) = some o' ∧
      Replaced (Executes program (⟨i, u⟩, σ)) u w o o' := by
  induction n generalizing i σ with
  | zero => cases h
  | succ n ih =>
    by_cases hset : SetsValue program i
    · refine ⟨o, ?_, ?_⟩
      · rw [← h, runFor, runFor, Walk.step_of_setsValue hset w u]
      · cases o with
        | error error τ => exact .error
        | ok v τ => exact .set ⟨_, _, ⟨0, .refl⟩, hset⟩
    · cases Walk.handsOn_of_not_setsValue (σ := σ) hset with
      | running j τ hstep =>
        simp only [runFor, hstep] at h ⊢
        rw [Walk.executes_of_step (hstep u) hset]
        exact ih h
      | error error τ hstep =>
        simp only [runFor, hstep] at h ⊢
        obtain rfl := Option.some.inj h
        exact ⟨_, rfl, .error⟩
      | done hstep =>
        simp only [runFor, hstep] at h ⊢
        obtain rfl := Option.some.inj h
        exact ⟨_, rfl, .kept (Walk.not_executes_of_finished (hstep u) hset)⟩

/-! ### Statements in sequence -/

theorem runsAll_append {xs ys : List Stmt} {last v : Value} {σ τ : Store} {o : Outcome}
    (hx : RunsAll xs last σ (.ok v τ)) (hy : RunsAll ys v τ o) : RunsAll (xs ++ ys) last σ o := by
  induction xs generalizing last σ with
  | nil =>
    cases hx
    exact hy
  | cons x xs ih =>
    cases hx with
    | cons hfirst hrest => exact .cons hfirst (ih hrest)

/-- A sequence fails in its first part, or goes through it and runs its second part. -/
theorem runsAll_of_append {xs ys : List Stmt} {last : Value} {σ : Store} {o : Outcome}
    (h : RunsAll (xs ++ ys) last σ o) :
    (∃ error τ, RunsAll xs last σ (.error error τ)) ∨
      ∃ v τ, RunsAll xs last σ (.ok v τ) ∧ RunsAll ys v τ o := by
  induction xs generalizing last σ with
  | nil => exact .inr ⟨last, σ, .nil, h⟩
  | cons x xs ih =>
    cases h with
    | fails hfirst => exact .inl ⟨_, _, .fails hfirst⟩
    | cons hfirst hrest =>
      rcases ih hrest with ⟨error, τ, hfails⟩ | ⟨v, τ, hx, hy⟩
      · exact .inl ⟨error, τ, .cons hfirst hfails⟩
      · exact .inr ⟨v, τ, .cons hfirst hx, hy⟩

end Typed

/-! ### Snippets in sequence -/

theorem Store.Agrees.symm {σ τ : Store} (h : σ.Agrees τ) : τ.Agrees σ :=
  ⟨h.console.symm, fun x hx => (h.visible x hx).symm⟩

theorem Store.Agrees.trans {σ τ ρ : Store} (h : σ.Agrees τ) (h' : τ.Agrees ρ) : σ.Agrees ρ :=
  ⟨h.console.trans h'.console, fun x hx => (h.visible x hx).trans (h'.visible x hx)⟩

/-- How a run that continues another one compares with the two runs joined: the same error, or the
    same value if it executes a declaration or an expression; if it executes none, then it has no
    value, and joined the value is that of the run before.  The console is the same, and so are all
    variables that are not hidden. -/
inductive Outcome.Continues (executes : Prop) (before : Value) : Outcome → Outcome → Prop where
  | error {error : RunError} {σ τ : Store} :
      σ.Agrees τ → Continues executes before (.error error σ) (.error error τ)
  | ok {v : Value} {σ τ : Store} :
      executes → σ.Agrees τ → Continues executes before (.ok v σ) (.ok v τ)
  | idle {σ τ : Store} :
      ¬ executes → σ.Agrees τ → Continues executes before (.ok .void σ) (.ok before τ)

namespace Typed

variable {body : List Stmt} {v : Value} {σ τ : Store}

/-- Statements that are walked on their own, from a store that agrees, run behind others to an
    outcome that continues theirs. -/
theorem runsAll_of_walked (hs : Stmt.AllStructured body) (hv : Stmt.AllVisible body)
    (hστ : σ.Agrees τ) {n : Nat} {o : Outcome}
    (hn : runFor (Walk.step (Stmt.block body).lower) n (Walk.Place.start, τ) = some o) :
    ∃ o', RunsAll body v σ o' ∧ ∀ o'', o'.Alike o'' →
      o.Continues (Executes (Stmt.block body).lower (Walk.Place.start, τ)) v o'' := by
  obtain ⟨o₁, ho₁, hreplaced⟩ := replaced_of_walk v hn
  obtain ⟨o', hruns, halike⟩ :=
    runs_of_endsWith_beside (s := .block body) hs hv hστ ⟨n, ho₁⟩
  cases hruns with
  | block hall =>
    refine ⟨o', hall, fun o'' halike'' => ?_⟩
    cases hreplaced with
    | error =>
      cases halike with
      | error h => cases halike'' with
        | error h' => exact .error (h.symm.trans h')
    | set hexecutes =>
      cases halike with
      | ok h => cases halike'' with
        | ok h' => exact .ok hexecutes (h.symm.trans h')
    | kept hidle =>
      cases halike with
      | ok h => cases halike'' with
        | ok h' => exact .idle hidle (h.symm.trans h')

theorem walked_of_runsAll (hs : Stmt.AllStructured body) (hv : Stmt.AllVisible body)
    (hστ : σ.Agrees τ) {o' : Outcome} (h : RunsAll body v σ o') :
    ∃ n o, runFor (Walk.step (Stmt.block body).lower) n (Walk.Place.start, τ) = some o := by
  obtain ⟨o, ⟨n, hn⟩, -⟩ := endsWith_of_runs_beside (s := .block body) hs hv hστ (.block h)
  obtain ⟨o', ho', -⟩ := replaced_of_walk .void hn
  exact ⟨n, o', ho'⟩

theorem allStructured_append : (xs : List Stmt) → {ys : List Stmt} → Stmt.AllStructured xs →
    Stmt.AllStructured ys → Stmt.AllStructured (xs ++ ys)
  | [], _, _, hy => hy
  | _ :: xs, _, hx, hy => ⟨hx.1, allStructured_append xs hx.2 hy⟩

theorem allVisible_append : (xs : List Stmt) → {ys : List Stmt} → Stmt.AllVisible xs →
    Stmt.AllVisible ys → Stmt.AllVisible (xs ++ ys)
  | [], _, _, hy => hy
  | _ :: xs, _, hx, hy => ⟨hx.1, allVisible_append xs hx.2 hy⟩

end Typed

namespace Snippet

open Typed (Runs RunsAll)

/-- A walk through a snippet executes a declaration or an expression. -/
def Executes (s : Snippet) (σ : Store) : Prop :=
  Typed.Executes s.lowered (Typed.Walk.Place.start, σ)

variable {a : Snippet} {source : String}

namespace Clean

variable {σ τ : Store} {v : Value} {n : Nat}

/-- A walk that ends with a value runs through all statements, up to hidden bounds. -/
theorem runsAll_of_treeWalk (ha : a.Clean)
    (hn : a.evaluate .treeWalk σ n = some (.ended (.ok v τ))) :
    ∃ ρ, RunsAll a.statements .void σ (.ok v ρ) ∧ ρ.Agrees τ := by
  obtain ⟨hwalks, -⟩ := treeWalk_iff_runs ha.issues_eq_nil ha.structured ha.visible.1 σ
  obtain ⟨_, _, heq, hruns, halike⟩ := hwalks n _ hn
  cases heq
  cases halike with
  | ok hagrees =>
    cases hruns with
    | block hall => exact ⟨_, hall, hagrees⟩

/-- A run through the statements and others comes by where the walk through them ended. -/
theorem rest_of_treeWalk (ha : a.Clean)
    (hn : a.evaluate .treeWalk σ n = some (.ended (.ok v τ))) {rest : List Typed.Stmt} {o : Outcome}
    (h : RunsAll (a.statements ++ rest) .void σ o) : ∃ ρ, ρ.Agrees τ ∧ RunsAll rest v ρ o := by
  obtain ⟨-, hends⟩ := treeWalk_iff_runs ha.issues_eq_nil ha.structured ha.visible.1 σ
  rcases Typed.runsAll_of_append h with ⟨error, ρ, hfails⟩ | ⟨w, ρ, hall, hrest⟩
  · obtain ⟨k, o', ho', halike⟩ := hends _ (.block hfails)
    cases evaluate_unique hn ho'
    cases halike
  · obtain ⟨k, o', ho', halike⟩ := hends _ (.block hall)
    cases evaluate_unique hn ho'
    cases halike with
    | ok hagrees => exact ⟨ρ, hagrees, hrest⟩

end Clean

end Snippet

end SnippetLang
