import SnippetLang.Proofs.Scoping.Beside

/-!
# Running beside scopes

A statement whose declarations are kept separate runs to an outcome exactly if the lexical
interpreter gives an answer, and the two end alike.
-/

namespace SnippetLang.Lexical

open Typed
open Typing (Context Sees)

/-! ### Statements that scoping does not tell from bindings -/

/-- A statement that is in scope behind known declarations, and keeps its own ones separate. -/
structure Fits (used : List Variable) (Γ : Context) (s : Stmt) : Prop where
  inScope : s.InScope Γ
  separate : s.Separate used Γ
  known : Known used Γ

/-- The same for all statements of a list. -/
structure AllFit (used : List Variable) (Γ : Context) (body : List Stmt) : Prop where
  inScope : Stmt.AllInScope body Γ
  separate : Stmt.AllSeparate body used Γ
  known : Known used Γ

section

variable {used : List Variable} {Γ : Context} {condition lower upper : Expr} {x : Variable}
  {s yes no body : Stmt} {rest : List Stmt}

namespace Fits

theorem mono {used' : List Variable} (h : Fits used Γ s) (hs : s.Separate used' Γ)
    (hsub : used ⊆ used') : Fits used' Γ s :=
  ⟨h.inScope, hs, h.known.mono hsub⟩

theorem block {body : List Stmt} (h : Fits used Γ (.block body)) : AllFit used ([] :: Γ) body :=
  ⟨h.inScope, h.separate, h.known.enter⟩

theorem ifThen (h : Fits used Γ (.ifThen condition yes)) : Fits used Γ yes :=
  ⟨h.inScope.2, h.separate.1, h.known⟩

theorem ifTrue (h : Fits used Γ (.ifElse condition yes no)) : Fits used Γ yes :=
  ⟨h.inScope.2.1, h.separate.1, h.known⟩

theorem ifFalse (h : Fits used Γ (.ifElse condition yes no)) :
    Fits (yes.introduces ++ used) (after Γ yes) no :=
  ⟨h.inScope.2.2, h.separate.2.1, h.known.after h.inScope.2.1 h.separate.1⟩

end Fits

theorem AllFit.head (h : AllFit used Γ (s :: rest)) : Fits used Γ s :=
  ⟨h.inScope.1, h.separate.1, h.known⟩

theorem AllFit.tail (h : AllFit used Γ (s :: rest)) :
    AllFit (s.introduces ++ used) (after Γ s) rest :=
  ⟨h.inScope.2, h.separate.2, h.known.after h.inScope.1 h.separate.1⟩

theorem introduces_subset_count (x : Variable) (body : Stmt) (used : List Variable) :
    body.introduces ⊆ x :: body.introduces ++ used :=
  List.subset_append_of_subset_left used (List.subset_cons_self x _)

/-- What a loop declares is declared already when it comes back to its body. -/
theorem append_absorb (xs ys : List Variable) : xs ++ (xs ++ ys) ⊆ xs ++ ys :=
  List.append_subset.2 ⟨List.subset_append_left xs ys, List.Subset.refl _⟩

namespace Fits

theorem whileBody (h : Fits used Γ (.whileDo condition body)) :
    Fits (body.introduces ++ used) Γ body :=
  ⟨h.inScope.2, h.separate.1, h.known.mono (List.subset_append_right _ _)⟩

theorem whileAgain (h : Fits used Γ (.whileDo condition body)) :
    Fits (body.introduces ++ used) Γ (.whileDo condition body) :=
  h.mono ⟨h.separate.1.mono (append_absorb _ _) body, h.separate.2⟩ (List.subset_append_right _ _)

theorem doBody (h : Fits used Γ (.doWhile body condition)) :
    Fits (body.introduces ++ used) Γ body :=
  ⟨h.inScope.1, h.separate, h.known.mono (List.subset_append_right _ _)⟩

theorem doAgain (h : Fits used Γ (.doWhile body condition)) :
    Fits (body.introduces ++ used) Γ (.doWhile body condition) :=
  h.mono (Stmt.Separate.mono (append_absorb _ _) body h.separate) (List.subset_append_right _ _)

theorem countBody (h : Fits used Γ (.count x lower upper body)) :
    Fits (x :: body.introduces ++ used) ([x] :: Γ) body := by
  refine ⟨h.inScope.2.2, h.separate.2, ?_⟩
  exact (h.known.mono (List.subset_append_right _ _)).counter h.separate.1

theorem doKnown (h : Fits used Γ (.doWhile body condition)) :
    Known (body.introduces ++ (body.introduces ++ used)) (after Γ body) :=
  h.doBody.known.after h.inScope.1 h.separate

end Fits

/-! ### Declarations that are passed over -/

variable {m : Memory} {σ : Store} {last : Value}

theorem Mirrors.again
    (h : Mirrors (body.introduces ++ (body.introduces ++ used)) (after Γ body) m σ) :
    Mirrors (body.introduces ++ used) Γ m σ :=
  h.forget.mono (append_absorb _ _)

theorem Fits.passYes (hs : Fits used Γ (.ifElse condition yes no)) (h : Mirrors used Γ m σ) :
    Mirrors (yes.introduces ++ used) (after Γ yes) m σ :=
  (h.passOver hs.separate.2.2.1).mono (List.subset_append_right _ _)

theorem Fits.passNo (hs : Fits used Γ (.ifElse condition yes no))
    (h : Mirrors (yes.introduces ++ used) (after Γ yes) m σ) :
    Mirrors ((Stmt.ifElse condition yes no).introduces ++ used)
      (after Γ (.ifElse condition yes no)) m σ := by
  rw [← after_ifElse]
  refine (h.passOver hs.separate.2.2.2).mono ?_
  exact List.append_subset.2 ⟨List.subset_append_of_subset_left used (List.subset_append_left _ _),
    List.subset_append_right _ _⟩

theorem Mirrors.behindNo
    (h : Mirrors (no.introduces ++ (yes.introduces ++ used)) (after (after Γ yes) no) m σ) :
    Mirrors ((Stmt.ifElse condition yes no).introduces ++ used)
      (after Γ (.ifElse condition yes no)) m σ := by
  rw [← after_ifElse]
  refine h.mono ?_
  intro y hy
  simp only [Stmt.introduces, List.mem_append] at hy ⊢
  tauto

theorem Fits.passWhile (hs : Fits used Γ (.whileDo condition body)) (h : Mirrors used Γ m σ) :
    Mirrors (body.introduces ++ used) (after Γ (.whileDo condition body)) m σ := by
  have hnil : (Stmt.whileDo condition body).declares = [] := hs.separate.2
  rw [after_of_declares_nil hnil]
  exact h.mono (List.subset_append_right _ _)

theorem Mirrors.behindTail
    (h : Mirrors (Stmt.allIntroduce rest ++ (s.introduces ++ used)) (after Γ s) m σ) :
    Mirrors (Stmt.allIntroduce (s :: rest) ++ used) Γ m σ := by
  refine h.forget.mono ?_
  intro y hy
  simp only [Stmt.allIntroduce, List.mem_append] at hy ⊢
  tauto

/-! ### Parts of statements -/

theorem run_block (n : Nat) (Γ : Context) (body : List Stmt) (last : Value) (m : Memory) :
    run (n + 1) Γ (.block body) last m =
      (do let v ← runAll n ([] :: Γ) body last; Run.leave; pure v : Run Value)
        { m with scopes := [] :: m.scopes } :=
  Run.bind_of_ok rfl

/-- Leaving a scope takes its variables out of sight. -/
theorem leave_beside {level : List Variable} {p : Run Value} {a : Answer Value}
    {o : Outcome} (ha : p m = some a) (h : Beside (Mirrors used (level :: Γ)) a o) :
    ∃ a', (do let v ← p; Run.leave; pure v : Run Value) m = some a' ∧
      Beside (Mirrors used Γ) a' o := by
  cases h with
  | ok hm => exact ⟨_, Run.bind_of_ok ha, .ok hm.leave⟩
  | error hconsole => exact ⟨_, Run.bind_of_error ha, .error hconsole⟩

theorem run_declare (hs : Fits used Γ (.declare x lower)) (hm : Mirrors used Γ m σ) (n : Nat) :
    ∃ a, run (n + 1) Γ (.declare x lower) last m = some a ∧
      Beside (Mirrors (x :: used) (after Γ (.declare x lower))) a (assignFrom x lower σ) := by
  obtain ⟨hlower, hfresh⟩ := hs.inScope
  rcases (lockstep_eval hs.known lower hlower).split hm with
    ⟨v, m', σ', hp, hq, hm'⟩ | ⟨error, m', σ', hp, hq, hconsole⟩
  · rw [assignFrom_ok hq]
    exact ⟨_, Run.bind_of_ok hp, .ok (hm'.declare hs.separate hfresh lower v)⟩
  · rw [assignFrom_error hq]
    exact ⟨_, Run.bind_of_error hp, .error hconsole⟩

/-- A counting loop evaluates both of its bounds in the scope around it, although its variable has
    its first value already when the upper one is evaluated. -/
theorem run_count (hs : Fits used Γ (.count x lower upper body)) (hm : Mirrors used Γ m σ) :
    (∃ first bound m' σ' σ'', assignFrom x lower σ = .ok first σ' ∧ upper.eval σ' = .ok bound σ'' ∧
      Mirrors (x :: used) ([x] :: Γ) m' σ'' ∧
      ∀ n, run (n + 1) Γ (.count x lower upper body) last m =
        (do let v ← repeats n ([x] :: Γ) x bound body bound; Run.leave; pure v : Run Value) m') ∨
    ∃ error m' σ', (assignFrom x lower σ = .error error σ' ∨
        ∃ first σ₁, assignFrom x lower σ = .ok first σ₁ ∧ upper.eval σ₁ = .error error σ') ∧
      m'.console = σ'.console ∧
      ∀ n, run (n + 1) Γ (.count x lower upper body) last m = some (.error error, m') := by
  obtain ⟨hlower, hupper, -⟩ := hs.inScope
  rcases (lockstep_eval hs.known lower hlower).split hm with
    ⟨first, m₁, σ₁, hp, hq, hm₁⟩ | ⟨error, m', σ', hp, hq, hconsole⟩
  · have hknown : Known (x :: used) Γ := hs.known.mono (List.subset_cons_self x used)
    have hm₂ := hm₁.hide hs.separate.1 first
    rcases (lockstep_eval hknown upper hupper).split hm₂ with
      ⟨bound, m', σ', hp', hq', hm'⟩ | ⟨error, m', σ', hp', hq', hconsole⟩
    · -- the upper bound cannot mention the variable, which is not in sight yet
      have hread : σ'.bindings.read x = first := by
        have hoff : ∀ y ∈ Code.exprVariables upper, y.same x = false :=
          fun y hy => hs.separate.1 y (mem_flatten_of_sees (hupper y hy))
        rw [← eval_sameOutside hq' x hoff, Bindings.read_set, if_pos (Variable.same_self x)]
      have hcounter := hread ▸ hm'.counter (x := x) List.mem_cons_self
      refine .inl ⟨first, bound, _, _, σ', assignFrom_ok hq, hq', hcounter, fun n => ?_⟩
      exact (Run.bind_of_ok hp).trans ((Run.bind_of_ok hp').trans (Run.bind_of_ok rfl))
    · refine .inr ⟨error, m', σ', .inr ⟨first, _, assignFrom_ok hq, hq'⟩, hconsole, fun n => ?_⟩
      exact (Run.bind_of_ok hp).trans (Run.bind_of_error hp')
  · exact .inr ⟨error, m', σ', .inl (assignFrom_error hq), hconsole, fun n => Run.bind_of_error hp⟩

end

/-! ### A run belongs to an answer

By induction on the run.  What a statement declares comes into sight behind it and counts as
declared from then on; a loop starts over with what its body declared out of sight, but counted.
-/

mutual

/-- Where a statement runs to an outcome, the interpreter gives an answer that is alike. -/
theorem run_of_runs {s : Stmt} {last : Value} {σ : Store} {o : Outcome} :
    Runs s last σ o → ∀ {used : List Variable} {Γ : Context} {m : Memory}, Fits used Γ s →
    Mirrors used Γ m σ → ∃ n a, run n Γ s last m = some a ∧
      Beside (Mirrors (s.introduces ++ used) (after Γ s)) a o
  | .block hbody, _, Γ, _, hs, hm => by
    obtain ⟨n, a, ha, hbeside⟩ := runAll_of_runsAll hbody hs.block hm.enter
    obtain ⟨a', ha', hbeside'⟩ := leave_beside ha hbeside
    refine ⟨n + 1, a', (run_block n Γ _ _ _).trans ha', ?_⟩
    rwa [after_of_declares_nil rfl]
  | .declare, _, _, _, hs, hm => ⟨1, run_declare hs hm 0⟩
  | .expr, _, Γ, _, hs, hm => by
    obtain ⟨a, ha, hbeside⟩ := lockstep_eval hs.known _ hs.inScope _ _ hm
    refine ⟨1, a, ha, ?_⟩
    rwa [after_of_declares_nil rfl]
  | .ifThenFails htest, _, _, _, hs, hm => by
    obtain ⟨m', hp, hconsole⟩ := (lockstep_test hs.known hs.inScope.1).of_error hm htest
    exact ⟨1, _, Run.bind_of_error hp, .error hconsole⟩
  | .ifThenTrue htest hyes, _, _, _, hs, hm => by
    obtain ⟨m', hp, hm'⟩ := (lockstep_test hs.known hs.inScope.1).of_ok hm htest
    obtain ⟨n, a, ha, hbeside⟩ := run_of_runs hyes hs.ifThen hm'
    exact ⟨n + 1, a, (Run.bind_of_ok hp).trans ha, hbeside⟩
  | .ifThenFalse htest, _, _, _, hs, hm => by
    obtain ⟨m', hp, hm'⟩ := (lockstep_test hs.known hs.inScope.1).of_ok hm htest
    refine ⟨1, _, Run.bind_of_ok hp, .ok ?_⟩
    exact (hm'.passOver hs.separate.2).mono (List.subset_append_right _ _)
  | .ifElseFails htest, _, _, _, hs, hm => by
    obtain ⟨m', hp, hconsole⟩ := (lockstep_test hs.known hs.inScope.1).of_error hm htest
    exact ⟨1, _, Run.bind_of_error hp, .error hconsole⟩
  | .ifElseTrue htest hyes, _, _, _, hs, hm => by
    obtain ⟨m', hp, hm'⟩ := (lockstep_test hs.known hs.inScope.1).of_ok hm htest
    obtain ⟨n, a, ha, hbeside⟩ := run_of_runs hyes hs.ifTrue hm'
    exact ⟨n + 1, a, (Run.bind_of_ok hp).trans ha, hbeside.mono fun _ _ => hs.passNo⟩
  | .ifElseFalse htest hno, _, _, _, hs, hm => by
    obtain ⟨m', hp, hm'⟩ := (lockstep_test hs.known hs.inScope.1).of_ok hm htest
    obtain ⟨n, a, ha, hbeside⟩ := run_of_runs hno hs.ifFalse (hs.passYes hm')
    exact ⟨n + 1, a, (Run.bind_of_ok hp).trans ha, hbeside.mono fun _ _ hm => hm.behindNo⟩
  | .whileFails htest, _, _, _, hs, hm => by
    obtain ⟨m', hp, hconsole⟩ := (lockstep_test hs.known hs.inScope.1).of_error hm htest
    exact ⟨1, _, Run.bind_of_error hp, .error hconsole⟩
  | .whileDone htest, _, _, _, hs, hm => by
    obtain ⟨m', hp, hm'⟩ := (lockstep_test hs.known hs.inScope.1).of_ok hm htest
    exact ⟨1, _, Run.bind_of_ok hp, .ok (hs.passWhile hm')⟩
  | .whileBodyFails htest hbody, _, _, _, hs, hm => by
    obtain ⟨m', hp, hm'⟩ := (lockstep_test hs.known hs.inScope.1).of_ok hm htest
    obtain ⟨n, a, ha, hbeside⟩ :=
      run_of_runs hbody hs.whileBody (hm'.mono (List.subset_append_right _ _))
    cases hbeside with
    | error hconsole =>
      exact ⟨n + 1, _, (Run.bind_of_ok hp).trans (Run.bind_of_error ha), .error hconsole⟩
  | .whileAgain htest hbody hagain, _, _, _, hs, hm => by
    obtain ⟨m', hp, hm'⟩ := (lockstep_test hs.known hs.inScope.1).of_ok hm htest
    obtain ⟨n, a, ha, hbeside⟩ :=
      run_of_runs hbody hs.whileBody (hm'.mono (List.subset_append_right _ _))
    cases hbeside with
    | ok hm'' =>
      obtain ⟨k, b, hb, hbeside'⟩ := run_of_runs hagain hs.whileAgain hm''.again
      refine ⟨max n k + 1, b, ?_, hbeside'.mono fun _ _ h => h.mono (append_absorb _ _)⟩
      have ha' := run_mono ha (Nat.le_max_left n k)
      have hb' := run_mono hb (Nat.le_max_right n k)
      exact (Run.bind_of_ok hp).trans ((Run.bind_of_ok ha').trans hb')
  | .doBodyFails hbody, _, _, _, hs, hm => by
    obtain ⟨n, a, ha, hbeside⟩ :=
      run_of_runs hbody hs.doBody (hm.mono (List.subset_append_right _ _))
    cases hbeside with
    | error hconsole => exact ⟨n + 1, _, Run.bind_of_error ha, .error hconsole⟩
  | .doFails hbody htest, _, _, _, hs, hm => by
    obtain ⟨n, a, ha, hbeside⟩ :=
      run_of_runs hbody hs.doBody (hm.mono (List.subset_append_right _ _))
    cases hbeside with
    | ok hm' =>
      obtain ⟨m'', hp, hconsole⟩ := (lockstep_test hs.doKnown hs.inScope.2).of_error hm' htest
      exact ⟨n + 1, _, (Run.bind_of_ok ha).trans (Run.bind_of_error hp), .error hconsole⟩
  | .doDone hbody htest, _, _, _, hs, hm => by
    obtain ⟨n, a, ha, hbeside⟩ :=
      run_of_runs hbody hs.doBody (hm.mono (List.subset_append_right _ _))
    cases hbeside with
    | ok hm' =>
      obtain ⟨m'', hp, hm''⟩ := (lockstep_test hs.doKnown hs.inScope.2).of_ok hm' htest
      exact ⟨n + 1, _, (Run.bind_of_ok ha).trans (Run.bind_of_ok hp),
        .ok (hm''.mono (append_absorb _ _))⟩
  | .doAgain hbody htest hagain, _, _, _, hs, hm => by
    obtain ⟨n, a, ha, hbeside⟩ :=
      run_of_runs hbody hs.doBody (hm.mono (List.subset_append_right _ _))
    cases hbeside with
    | ok hm' =>
      obtain ⟨m'', hp, hm''⟩ := (lockstep_test hs.doKnown hs.inScope.2).of_ok hm' htest
      obtain ⟨k, b, hb, hbeside'⟩ := run_of_runs hagain hs.doAgain hm''.again
      refine ⟨max n k + 1, b, ?_, hbeside'.mono fun _ _ h => h.mono (append_absorb _ _)⟩
      have ha' := run_mono ha (Nat.le_max_left n k)
      have hb' := run_mono hb (Nat.le_max_right n k)
      exact (Run.bind_of_ok ha').trans ((Run.bind_of_ok hp).trans hb')
  | .countLowerFails hlower, _, _, _, hs, hm => by
    rcases run_count hs hm with ⟨_, _, _, _, _, hok, -⟩ | ⟨error, m', σ', hfails, hconsole, hrun⟩
    · cases hlower.symm.trans hok
    · rcases hfails with herror | ⟨_, _, hok, -⟩
      · cases hlower.symm.trans herror
        exact ⟨1, _, hrun 0, .error hconsole⟩
      · cases hlower.symm.trans hok
  | .countUpperFails hlower hupper, _, _, _, hs, hm => by
    rcases run_count hs hm with
      ⟨_, _, _, _, _, hok, hok', -⟩ | ⟨error, m', σ', hfails, hconsole, hrun⟩
    · cases hlower.symm.trans hok
      cases hupper.symm.trans hok'
    · rcases hfails with herror | ⟨_, _, hok, herror⟩
      · cases hlower.symm.trans herror
      · cases hlower.symm.trans hok
        cases hupper.symm.trans herror
        exact ⟨1, _, hrun 0, .error hconsole⟩
  | .count hlower hupper hloop, _, _, _, hs, hm => by
    rcases run_count hs hm with
      ⟨_, bound, m', _, σ'', hok, hok', hm', hrun⟩ | ⟨error, m', σ', hfails, hconsole, hrun⟩
    · cases hlower.symm.trans hok
      cases hupper.symm.trans hok'
      obtain ⟨n, a, ha, hbeside⟩ := repeats_of_repeats hloop hs.countBody
        (introduces_subset_count _ _ _) (.here (List.mem_singleton_self _) rfl)
        (hm'.mono (List.cons_subset_cons _ (List.subset_append_right _ _)))
      obtain ⟨a', ha', hbeside'⟩ := leave_beside ha hbeside
      refine ⟨n + 1, a', (hrun n).trans ha', ?_⟩
      rwa [after_of_declares_nil rfl]
    · rcases hfails with herror | ⟨_, _, hok, herror⟩
      · cases hlower.symm.trans herror
      · cases hlower.symm.trans hok
        cases hupper.symm.trans herror

theorem runAll_of_runsAll {body : List Stmt} {last : Value} {σ : Store} {o : Outcome} :
    RunsAll body last σ o → ∀ {used : List Variable} {Γ : Context} {m : Memory},
    AllFit used Γ body → Mirrors used Γ m σ → ∃ n a, runAll n Γ body last m = some a ∧
      Beside (Mirrors (Stmt.allIntroduce body ++ used) Γ) a o
  | .nil, _, _, _, _, hm => ⟨1, _, rfl, .ok hm⟩
  | .fails hfirst, _, _, _, hs, hm => by
    obtain ⟨n, a, ha, hbeside⟩ := run_of_runs hfirst hs.head hm
    cases hbeside with
    | error hconsole => exact ⟨n + 1, _, Run.bind_of_error ha, .error hconsole⟩
  | .cons hfirst hrest, _, _, _, hs, hm => by
    obtain ⟨n, a, ha, hbeside⟩ := run_of_runs hfirst hs.head hm
    cases hbeside with
    | ok hm' =>
      obtain ⟨k, b, hb, hbeside'⟩ := runAll_of_runsAll hrest hs.tail hm'
      refine ⟨max n k + 1, b, ?_, hbeside'.mono fun _ _ hm => hm.behindTail⟩
      have ha' := run_mono ha (Nat.le_max_left n k)
      have hb' := runAll_mono hb (Nat.le_max_right n k)
      exact (Run.bind_of_ok ha').trans hb'

theorem repeats_of_repeats {x : Variable} {bound : Value} {body : Stmt} {last : Value} {σ : Store}
    {o : Outcome} : Repeats x bound body last σ o → ∀ {used : List Variable} {Γ : Context}
    {m : Memory}, Fits used Γ body → body.introduces ⊆ used → Sees Γ x.name x →
    Mirrors used Γ m σ → ∃ n a, repeats n Γ x bound body last m = some a ∧
      Beside (Mirrors used Γ) a o
  | .fails htest, _, _, _, _, _, hx, hm => by
    obtain ⟨m', hp, hconsole⟩ := (lockstep_atMost hx bound).of_error hm htest
    exact ⟨1, _, Run.bind_of_error hp, .error hconsole⟩
  | .done htest, _, _, _, _, _, hx, hm => by
    obtain ⟨m', hp, hm'⟩ := (lockstep_atMost hx bound).of_ok hm htest
    exact ⟨1, _, Run.bind_of_ok hp, .ok hm'⟩
  | .bodyFails htest hbody, _, _, _, hs, _, hx, hm => by
    obtain ⟨m', hp, hm'⟩ := (lockstep_atMost hx bound).of_ok hm htest
    obtain ⟨n, a, ha, hbeside⟩ := run_of_runs hbody hs hm'
    cases hbeside with
    | error hconsole =>
      exact ⟨n + 1, _, (Run.bind_of_ok hp).trans (Run.bind_of_error ha), .error hconsole⟩
  | .stepFails htest hbody hstep, _, _, _, hs, hsub, hx, hm => by
    obtain ⟨m', hp, hm'⟩ := (lockstep_atMost hx bound).of_ok hm htest
    obtain ⟨n, a, ha, hbeside⟩ := run_of_runs hbody hs hm'
    cases hbeside with
    | ok hm'' =>
      have hback := hm''.forget.mono (List.append_subset.2 ⟨hsub, List.Subset.refl _⟩)
      obtain ⟨m₃, hp', hconsole⟩ := (lockstep_stepUp hs.known hx).of_error hback hstep
      exact ⟨n + 1, _, (Run.bind_of_ok hp).trans ((Run.bind_of_ok ha).trans
        (Run.bind_of_error hp')), .error hconsole⟩
  | .again htest hbody hstep hagain, _, _, _, hs, hsub, hx, hm => by
    obtain ⟨m', hp, hm'⟩ := (lockstep_atMost hx bound).of_ok hm htest
    obtain ⟨n, a, ha, hbeside⟩ := run_of_runs hbody hs hm'
    cases hbeside with
    | ok hm'' =>
      have hback := hm''.forget.mono (List.append_subset.2 ⟨hsub, List.Subset.refl _⟩)
      obtain ⟨m₃, hp', hm₃⟩ := (lockstep_stepUp hs.known hx).of_ok hback hstep
      obtain ⟨k, b, hb, hbeside'⟩ := repeats_of_repeats hagain hs hsub hx hm₃
      refine ⟨max n k + 1, b, ?_, hbeside'⟩
      have ha' := run_mono ha (Nat.le_max_left n k)
      have hb' := repeats_mono hb (Nat.le_max_right n k)
      exact (Run.bind_of_ok hp).trans ((Run.bind_of_ok ha').trans ((Run.bind_of_ok hp').trans hb'))

end

/-! ### An answer belongs to a run

By induction on the number of calls.  Only the run has to be built up: that its end is alike to the
answer is known as soon as there is one.
-/

section

variable {used : List Variable} {Γ : Context} {s : Stmt} {last : Value} {m : Memory} {σ : Store}
  {n : Nat} {a : Answer Value} {o : Outcome}

/-- The answer of the interpreter is alike to the outcome. -/
theorem beside_of_run (ha : run n Γ s last m = some a) (ho : Runs s last σ o)
    (hs : Fits used Γ s) (hm : Mirrors used Γ m σ) :
    Beside (Mirrors (s.introduces ++ used) (after Γ s)) a o := by
  obtain ⟨k, b, hb, hbeside⟩ := run_of_runs ho hs hm
  have ha' := run_mono ha (Nat.le_max_left n k)
  have hb' := run_mono hb (Nat.le_max_right n k)
  obtain rfl := Option.some.inj (ha'.symm.trans hb')
  exact hbeside

end

mutual

/-- Where the interpreter gives an answer, the statement runs to an outcome. -/
theorem runs_of_run : (n : Nat) → (s : Stmt) → ∀ {used : List Variable} {Γ : Context} {m : Memory}
    {σ : Store} {last : Value} {a : Answer Value}, Fits used Γ s →
    Mirrors used Γ m σ → run n Γ s last m = some a → ∃ o, Runs s last σ o
  | 0, _, _, _, _, _, _, _, _, _, h => nomatch h
  | n + 1, .block body, _, Γ, m, σ, last, a, hs, hm, h => by
    obtain ⟨b, hb⟩ := Run.exists_of_bind ((run_block n Γ body last m).symm.trans h)
    obtain ⟨o, ho⟩ := runsAll_of_runAll n body hs.block hm.enter hb
    exact ⟨o, .block ho⟩
  | _ + 1, .declare _ _, _, _, _, _, _, _, _, _, _ => ⟨_, .declare⟩
  | _ + 1, .expr _, _, _, _, _, _, _, _, _, _ => ⟨_, .expr⟩
  | n + 1, .ifThen condition yes, _, _, _, _, _, _, hs, hm, h => by
    rcases (lockstep_test hs.known hs.inScope.1).split hm with
      ⟨v, m', σ', hp, hq, hm'⟩ | ⟨error, m', σ', hp, hq, -⟩
    · have h' := (Run.bind_of_ok hp).symm.trans h
      cases v with
      | false => exact ⟨_, .ifThenFalse hq⟩
      | true =>
        obtain ⟨o, ho⟩ := runs_of_run n yes hs.ifThen hm' h'
        exact ⟨o, .ifThenTrue hq ho⟩
    · exact ⟨_, .ifThenFails hq⟩
  | n + 1, .ifElse condition yes no, _, _, _, _, _, _, hs, hm, h => by
    rcases (lockstep_test hs.known hs.inScope.1).split hm with
      ⟨v, m', σ', hp, hq, hm'⟩ | ⟨error, m', σ', hp, hq, -⟩
    · have h' := (Run.bind_of_ok hp).symm.trans h
      cases v with
      | false =>
        obtain ⟨o, ho⟩ := runs_of_run n no hs.ifFalse (hs.passYes hm') h'
        exact ⟨o, .ifElseFalse hq ho⟩
      | true =>
        obtain ⟨o, ho⟩ := runs_of_run n yes hs.ifTrue hm' h'
        exact ⟨o, .ifElseTrue hq ho⟩
    · exact ⟨_, .ifElseFails hq⟩
  | n + 1, .whileDo condition body, _, _, _, _, _, _, hs, hm, h => by
    rcases (lockstep_test hs.known hs.inScope.1).split hm with
      ⟨v, m', σ', hp, hq, hm'⟩ | ⟨error, m', σ', hp, hq, -⟩
    · have h' := (Run.bind_of_ok hp).symm.trans h
      cases v with
      | false => exact ⟨_, .whileDone hq⟩
      | true =>
        obtain ⟨b, hb⟩ := Run.exists_of_bind h'
        have hm'' := hm'.mono (List.subset_append_right body.introduces _)
        obtain ⟨o, ho⟩ := runs_of_run n body hs.whileBody hm'' hb
        cases beside_of_run hb ho hs.whileBody hm'' with
        | error _ => exact ⟨_, .whileBodyFails hq ho⟩
        | ok hnext =>
          have hagain := (Run.bind_of_ok hb).symm.trans h'
          obtain ⟨o', ho'⟩ :=
            runs_of_run n (.whileDo condition body) hs.whileAgain hnext.again hagain
          exact ⟨o', .whileAgain hq ho ho'⟩
    · exact ⟨_, .whileFails hq⟩
  | n + 1, .doWhile body condition, _, _, _, _, _, _, hs, hm, h => by
    obtain ⟨b, hb⟩ := Run.exists_of_bind h
    have hm' := hm.mono (List.subset_append_right body.introduces _)
    obtain ⟨o, ho⟩ := runs_of_run n body hs.doBody hm' hb
    cases beside_of_run hb ho hs.doBody hm' with
    | error _ => exact ⟨_, .doBodyFails ho⟩
    | ok hnext =>
      have h' := (Run.bind_of_ok hb).symm.trans h
      rcases (lockstep_test hs.doKnown hs.inScope.2).split hnext with
        ⟨v, m'', σ'', hp, hq, hm''⟩ | ⟨error, m'', σ'', hp, hq, -⟩
      · have h'' := (Run.bind_of_ok hp).symm.trans h'
        cases v with
        | false => exact ⟨_, .doDone ho hq⟩
        | true =>
          obtain ⟨o', ho'⟩ := runs_of_run n (.doWhile body condition) hs.doAgain hm''.again h''
          exact ⟨o', .doAgain ho hq ho'⟩
      · exact ⟨_, .doFails ho hq⟩
  | n + 1, .count x lower upper body, _, _, _, _, _, _, hs, hm, h => by
    rcases run_count hs hm with
      ⟨first, bound, m', σ', σ'', hok, hok', hm', hrun⟩ | ⟨error, m', σ', hfails, -, -⟩
    · obtain ⟨b, hb⟩ := Run.exists_of_bind ((hrun n).symm.trans h)
      obtain ⟨o, ho⟩ := repeats_of_answer n hs.countBody (introduces_subset_count x body _)
        (.here (List.mem_singleton_self _) rfl)
        (hm'.mono (List.cons_subset_cons x (List.subset_append_right _ _))) hb
      exact ⟨o, .count hok hok' ho⟩
    · rcases hfails with herror | ⟨first, σ₁, hok, herror⟩
      · exact ⟨_, .countLowerFails herror⟩
      · exact ⟨_, .countUpperFails hok herror⟩
  | _ + 1, .goto _, _, _, _, _, _, _, hs, _, _ => hs.inScope.elim
  | _ + 1, .gotoIf _ _ _, _, _, _, _, _, _, hs, _, _ => hs.inScope.elim
  | _ + 1, .label _, _, _, _, _, _, _, hs, _, _ => hs.inScope.elim
  | _ + 1, .result _, _, _, _, _, _, _, hs, _, _ => hs.inScope.elim

theorem runsAll_of_runAll : (n : Nat) → (body : List Stmt) → ∀ {used : List Variable} {Γ : Context}
    {m : Memory} {σ : Store} {last : Value} {a : Answer Value},
    AllFit used Γ body → Mirrors used Γ m σ → runAll n Γ body last m = some a →
    ∃ o, RunsAll body last σ o
  | 0, _, _, _, _, _, _, _, _, _, h => nomatch h
  | _ + 1, [], _, _, _, _, _, _, _, _, _ => ⟨_, .nil⟩
  | n + 1, s :: rest, _, _, _, _, _, _, hs, hm, h => by
    obtain ⟨b, hb⟩ := Run.exists_of_bind h
    obtain ⟨o, ho⟩ := runs_of_run n s hs.head hm hb
    cases beside_of_run hb ho hs.head hm with
    | error _ => exact ⟨_, .fails ho⟩
    | ok hm' =>
      obtain ⟨o', ho'⟩ :=
        runsAll_of_runAll n rest hs.tail hm' ((Run.bind_of_ok hb).symm.trans h)
      exact ⟨o', .cons ho ho'⟩

theorem repeats_of_answer : (n : Nat) → ∀ {x : Variable} {bound : Value} {body : Stmt}
    {used : List Variable} {Γ : Context} {m : Memory} {σ : Store} {last : Value}
    {a : Answer Value}, Fits used Γ body → body.introduces ⊆ used →
    Sees Γ x.name x → Mirrors used Γ m σ → repeats n Γ x bound body last m = some a →
    ∃ o, Repeats x bound body last σ o
  | 0, _, _, _, _, _, _, _, _, _, _, _, _, _, h => nomatch h
  | n + 1, x, bound, body, _, _, _, _, _, _, hs, hsub, hx, hm, h => by
    rcases (lockstep_atMost hx bound).split hm with
      ⟨v, m', σ', hp, hq, hm'⟩ | ⟨error, m', σ', hp, hq, -⟩
    · have h' := (Run.bind_of_ok hp).symm.trans h
      cases v with
      | false => exact ⟨_, .done hq⟩
      | true =>
        obtain ⟨b, hb⟩ := Run.exists_of_bind h'
        obtain ⟨o, ho⟩ := runs_of_run n body hs hm' hb
        cases beside_of_run hb ho hs hm' with
        | error _ => exact ⟨_, .bodyFails hq ho⟩
        | ok hnext =>
          have h'' := (Run.bind_of_ok hb).symm.trans h'
          have hback := hnext.forget.mono (List.append_subset.2 ⟨hsub, List.Subset.refl _⟩)
          rcases (lockstep_stepUp hs.known hx).split hback with
            ⟨next, m₃, σ₃, hp', hq', hm₃⟩ | ⟨error, m₃, σ₃, hp', hq', -⟩
          · obtain ⟨o', ho'⟩ :=
              repeats_of_answer n hs hsub hx hm₃ ((Run.bind_of_ok hp').symm.trans h'')
            exact ⟨o', .again hq ho hq' ho'⟩
          · exact ⟨_, .stepFails hq ho hq'⟩
    · exact ⟨_, .fails hq⟩

end

end SnippetLang.Lexical
