import SnippetLang.Proofs.Lowering.Forward

/-!
# Lowering keeps the meaning

A walk through the lowered form of a structured statement ends exactly when the statement runs to
an outcome, and then the two ends look alike: the same last value or the same error, the same
console, and the same values of all visible variables.
-/

namespace SnippetLang.Typed

/-! ### A walk that ends belongs to a run -/

mutual

/-- When a walk from the beginning of a lowered statement ends, anywhere, the statement runs to an
    outcome.  Parts of a statement are shorter, and a loop is entered again with fewer steps left. -/
theorem runs_of_walk {program : List Stmt} (hn : (marks program).Nodup) (N : Nat) (s : Stmt)
    (hs : s.Structured) (hv : s.Visible) {c : Counters} {n : Nat} {held : Nat → Option Value}
    {i : Nat} {last : Value} {σ τ : Store} {o : Outcome} (hc : n ≤ c.bounds)
    (hp : Placed program i (s.lowerFrom c).1) (ht : Tracks n held σ τ)
    (hN : runFor (Walk.step program) N (⟨i, last⟩, τ) = some o) : ∃ o', Runs s last σ o' := by
  match s, hs with
  | .block body, hs =>
    obtain ⟨o', hbody⟩ := runsAll_of_walk hn N body hs hv hc hp ht hN
    exact ⟨o', .block hbody⟩
  | .declare x init, _ => exact ⟨_, .declare⟩
  | .expr e, _ => exact ⟨_, .expr⟩
  | .ifThen e yes, hs =>
    have hat := ifThenAt hn hp
    cases hr : test e σ with
    | error error σ' => exact ⟨_, .ifThenFails hr⟩
    | ok b σ' =>
      obtain ⟨τ', hτ, ht'⟩ := (parallel_test hv.1).ok ht hr
      cases b with
      | false => exact ⟨_, .ifThenFalse hr⟩
      | true =>
        obtain ⟨M, rfl, hM⟩ :=
          (Steps.single (Walk.step_gotoIf_pass hat.test hτ (by decide))).split hN
        obtain ⟨o', hyes⟩ := runs_of_walk hn M yes hs hv.2 (c := c.take 1 0) hc hat.body ht' hM
        exact ⟨o', .ifThenTrue hr hyes⟩
  | .ifElse e yes no, hs =>
    rw [lowerFrom_ifElse] at hp
    have hat := ifElseAt hn hp
    cases hr : test e σ with
    | error error σ' => exact ⟨_, .ifElseFails hr⟩
    | ok b σ' =>
      obtain ⟨τ', hτ, ht'⟩ := (parallel_test hv.1).ok ht hr
      cases b with
      | false =>
        have hcounters := (numbered_lowerFrom yes hs.1 (c.take 2 0)).bounds
        obtain ⟨M, rfl, hM⟩ :=
          (Steps.single (Walk.step_gotoIf_jump hat.test hτ hat.other)).split hN
        obtain ⟨o', hno⟩ :=
          runs_of_walk hn M no hs.2 hv.2.2 (Nat.le_trans hc hcounters) hat.no ht' hM
        exact ⟨o', .ifElseFalse hr hno⟩
      | true =>
        obtain ⟨M, rfl, hM⟩ :=
          (Steps.single (Walk.step_gotoIf_pass hat.test hτ (by decide))).split hN
        obtain ⟨o', hyes⟩ :=
          runs_of_walk hn M yes hs.1 hv.2.1 (c := c.take 2 0) hc hat.yes ht' hM
        exact ⟨o', .ifElseTrue hr hyes⟩
  | .whileDo e body, hs =>
    have hat := whileAt hn hp
    cases hr : test e σ with
    | error error σ' => exact ⟨_, .whileFails hr⟩
    | ok b σ' =>
      obtain ⟨τ', hτ, ht'⟩ := (parallel_test hv.1).ok ht hr
      cases b with
      | false => exact ⟨_, .whileDone hr⟩
      | true =>
        obtain ⟨M, rfl, hM⟩ := (Steps.head (Walk.step_label hat.enter)
          (.single (Walk.step_gotoIf_pass hat.test hτ (by decide)))).split hN
        obtain ⟨o', hbody⟩ := runs_of_walk hn M body hs hv.2 (c := c.take 2 0) hc hat.body ht' hM
        cases arrives_of_runs hn hbody hs hv.2 (c := c.take 2 0) hc hat.body ht' with
        | error _ _ => exact ⟨_, .whileBodyFails hr hbody⟩
        | ok hsteps ht'' =>
          obtain ⟨K, rfl, hK⟩ :=
            (hsteps.trans (.single (Walk.step_goto hat.back hat.again))).split hM
          have hloop : runFor (Walk.step program) (1 + K) (⟨i, _⟩, _) = some o :=
            ((Steps.single (Walk.step_label hat.enter)).runFor_add K).trans hK
          obtain ⟨o', hagain⟩ := runs_of_walk hn (1 + K) (.whileDo e body) hs hv hc hp ht'' hloop
          exact ⟨o', .whileAgain hr hbody hagain⟩
  | .doWhile body e, hs =>
    have hat := doAt hn hp
    obtain ⟨M, rfl, hM⟩ := (Steps.single (Walk.step_label hat.enter)).split hN
    obtain ⟨o', hbody⟩ := runs_of_walk hn M body hs hv.1 (c := c.take 2 0) hc hat.body ht hM
    cases arrives_of_runs hn hbody hs hv.1 (c := c.take 2 0) hc hat.body ht with
    | error _ _ => exact ⟨_, .doBodyFails hbody⟩
    | @ok _ _ σ' _ hsteps ht' =>
      cases hr : test e σ' with
      | error error σ'' => exact ⟨_, .doFails hbody hr⟩
      | ok b σ'' =>
        obtain ⟨τ', hτ, ht''⟩ := (parallel_test hv.2).ok ht' hr
        cases b with
        | false => exact ⟨_, .doDone hbody hr⟩
        | true =>
          obtain ⟨K, rfl, hK⟩ :=
            (hsteps.trans (.single (Walk.step_gotoIf_jump hat.test hτ hat.again))).split hM
          have hloop : runFor (Walk.step program) (1 + K) (⟨i, _⟩, _) = some o :=
            ((Steps.single (Walk.step_label hat.enter)).runFor_add K).trans hK
          obtain ⟨o', hagain⟩ := runs_of_walk hn (1 + K) (.doWhile body e) hs hv hc hp ht'' hloop
          exact ⟨o', .doAgain hbody hr hagain⟩
  | .count x lower upper body, hs =>
    cases hr : assignFrom x lower σ with
    | error error σ' => exact ⟨_, .countLowerFails hr⟩
    | ok v σ' =>
      obtain ⟨τ', hτ, ht'⟩ := (parallel_assignFrom hv.1 hv.2.1).ok ht hr
      cases hr' : upper.eval σ' with
      | error error σ'' => exact ⟨_, .countUpperFails hr hr'⟩
      | ok bound σ'' =>
        obtain ⟨τ'', hτ', ht''⟩ := (parallel_eval _ hv.2.2.1).ok ht' hr'
        obtain ⟨held', hb, -, ht'''⟩ := ht''.hold (Nat.lt_succ_of_le hc) bound
        have hat := countingAt hn hp.tail.tail
        obtain ⟨M, rfl, hM⟩ := (Steps.head (Walk.step_declare_ok hp.head hτ)
          (.head (Walk.step_declare_ok hp.tail.head (assignFrom_ok hτ'))
            (.single (Walk.step_label hp.tail.tail.head)))).split hN
        obtain ⟨o', hloop⟩ := repeats_of_walk hn M hv.1 body hs hv.2.2.2 (c := c.take 2 1)
          (Nat.le_refl _) hb hat ht''' hM
        exact ⟨o', .count hr hr' hloop⟩
termination_by (N, sizeOf s)

theorem runsAll_of_walk {program : List Stmt} (hn : (marks program).Nodup) (N : Nat)
    (body : List Stmt) (hs : Stmt.AllStructured body) (hv : Stmt.AllVisible body) {c : Counters}
    {n : Nat} {held : Nat → Option Value} {i : Nat} {last : Value} {σ τ : Store} {o : Outcome}
    (hc : n ≤ c.bounds) (hp : Placed program i (Stmt.lowerAllFrom c body).1)
    (ht : Tracks n held σ τ) (hN : runFor (Walk.step program) N (⟨i, last⟩, τ) = some o) :
    ∃ o', RunsAll body last σ o' := by
  match body, hs with
  | [], _ => exact ⟨_, .nil⟩
  | s :: rest, hs =>
    rw [lowerAllFrom_cons] at hp
    have hcounters := (numbered_lowerFrom s hs.1 c).bounds
    obtain ⟨o', hfirst⟩ := runs_of_walk hn N s hs.1 hv.1 hc hp.left ht hN
    cases arrives_of_runs hn hfirst hs.1 hv.1 hc hp.left ht with
    | error _ _ => exact ⟨_, .fails hfirst⟩
    | ok hsteps ht' =>
      obtain ⟨M, hsplit, hM⟩ := hsteps.split hN
      obtain ⟨o', hrest⟩ :=
        runsAll_of_walk hn M rest hs.2 hv.2 (Nat.le_trans hc hcounters) hp.right ht' hM
      exact ⟨o', .cons hfirst hrest⟩
termination_by (N, sizeOf body)
decreasing_by
  all_goals
    simp only [Prod.lex_def, List.cons.sizeOf_spec, true_and]
    omega

theorem repeats_of_walk {program : List Stmt} (hn : (marks program).Nodup) (N : Nat)
    {x : Variable} (hx : x.Visible) (body : Stmt) (hs : body.Structured) (hv : body.Visible)
    {bound : Value} {c : Counters} {first final : JumpLabel} {n : Nat}
    {held : Nat → Option Value} {i j : Nat} {last : Value} {σ τ : Store} {o : Outcome}
    (hc : n ≤ c.bounds) (hb : held n = some bound)
    (hat : CountingAt program i x (hiddenBound n) first final (body.lowerFrom c).1 j)
    (ht : Tracks n held σ τ) (hN : runFor (Walk.step program) N (⟨i, last⟩, τ) = some o) :
    ∃ o', Repeats x bound body last σ o' := by
  cases hr : atMost x bound σ with
  | error error σ' => exact ⟨_, .fails hr⟩
  | ok b σ' =>
    obtain ⟨τ', hτ, ht'⟩ := (parallel_atMost hx (Nat.le_refl _) hb).ok ht hr
    cases b with
    | false => exact ⟨_, .done hr⟩
    | true =>
      obtain ⟨M, rfl, hM⟩ :=
        (Steps.single (Walk.step_gotoIf_pass hat.test hτ (by decide))).split hN
      obtain ⟨o', hbody⟩ := runs_of_walk hn M body hs hv hc hat.body ht' hM
      cases arrives_of_runs hn hbody hs hv hc hat.body ht' with
      | error _ _ => exact ⟨_, .bodyFails hr hbody⟩
      | @ok _ _ σ'' _ hsteps ht'' =>
        cases hstep : stepUp x σ'' with
        | error error σ''' => exact ⟨_, .stepFails hr hbody hstep⟩
        | ok next σ''' =>
          obtain ⟨τ'', hτ', ht'''⟩ := (parallel_stepUp hx).ok ht'' hstep
          obtain ⟨K, rfl, hK⟩ := (hsteps.trans (.head (Walk.step_expr_ok hat.step hτ')
            (.single (Walk.step_goto hat.back hat.again)))).split hM
          obtain ⟨o', hagain⟩ := repeats_of_walk hn K hx body hs hv hc hb hat ht''' hK
          exact ⟨o', .again hr hbody hstep hagain⟩
termination_by (N, sizeOf body)

end

/-! ### The two meanings agree -/

theorem tracks_of_agrees {σ τ : Store} (h : σ.Agrees τ) :
    Tracks 0 (fun k => τ.bindings.find? (hiddenBound k)) σ τ :=
  ⟨h, fun _ _ => rfl⟩

/-- The walk through a lowered statement from a store that agrees ends like the run of the
    statement. -/
theorem endsWith_of_runs_beside {s : Stmt} (hs : s.Structured) (hv : s.Visible) {σ τ : Store}
    (hστ : σ.Agrees τ) {last : Value} {o' : Outcome} (h : Runs s last σ o') :
    ∃ o, EndsWith (Walk.step s.lower) (⟨0, last⟩, τ) o ∧ o'.Alike o := by
  cases arrives_of_runs (nodup_marks_lower hs) h hs hv (c := ⟨0, 0⟩) (Nat.le_refl _)
      (Placed.whole s.lower) (tracks_of_agrees hστ) with
  | ok hsteps ht' =>
    refine ⟨_, hsteps.endsWith_iff.2 (endsWith_of_finished ?_), .ok ht'.agrees⟩
    exact Walk.step_end (Nat.le_of_eq (Nat.zero_add _).symm)
  | error hends ht' => exact ⟨_, hends, .error ht'.agrees⟩

/-- Where such a walk ends, the statement runs to an outcome that looks alike. -/
theorem runs_of_endsWith_beside {s : Stmt} (hs : s.Structured) (hv : s.Visible) {σ τ : Store}
    (hστ : σ.Agrees τ) {last : Value} {o : Outcome}
    (h : EndsWith (Walk.step s.lower) (⟨0, last⟩, τ) o) : ∃ o', Runs s last σ o' ∧ o'.Alike o := by
  obtain ⟨n, hn⟩ := h
  obtain ⟨o', hruns⟩ := runs_of_walk (nodup_marks_lower hs) n s hs hv (c := ⟨0, 0⟩) (Nat.le_refl _)
    (Placed.whole s.lower) (tracks_of_agrees hστ) hn
  obtain ⟨o'', hends, halike⟩ := endsWith_of_runs_beside hs hv hστ hruns
  obtain rfl := hends.unique ⟨n, hn⟩
  exact ⟨o', hruns, halike⟩

/-- The walk through a lowered statement ends like the run of the statement. -/
theorem endsWith_of_runs {s : Stmt} (hs : s.Structured) (hv : s.Visible) {σ : Store}
    {o' : Outcome} (h : Runs s .void σ o') :
    ∃ o, EndsWith (Walk.step s.lower) (Walk.Place.start, σ) o ∧ o'.Alike o :=
  endsWith_of_runs_beside hs hv ⟨rfl, fun _ _ => rfl⟩ h

end SnippetLang.Typed
