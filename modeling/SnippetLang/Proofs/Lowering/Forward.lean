import SnippetLang.Proofs.Lowering.Layout
import SnippetLang.Proofs.Lowering.Tracking

/-!
# Structured runs are walked

What a statement runs to, a walk through its lowered form gets to.  The lowered form may stand
anywhere in a program in which no label is marked twice: the walk enters it at its first index and
leaves it at the index behind it, or ends inside with the same error.
-/

namespace SnippetLang.Typed

/-- A walk gets from one index to another as an outcome says: with its value and a store beside
    its store, or it ends in its error before. -/
inductive Arrives (program : List Stmt) (n : Nat) (held : Nat → Option Value) (i j : Nat)
    (last : Value) (τ : Store) : Outcome → Prop where
  | ok {k : Nat} {v : Value} {σ' τ' : Store} :
      Steps (Walk.step program) k (⟨i, last⟩, τ) (⟨j, v⟩, τ') → Tracks n held σ' τ' →
      Arrives program n held i j last τ (.ok v σ')
  | error {error : RunError} {σ' τ' : Store} :
      EndsWith (Walk.step program) (⟨i, last⟩, τ) (.error error τ') → Tracks n held σ' τ' →
      Arrives program n held i j last τ (.error error σ')

namespace Arrives

variable {program : List Stmt} {n : Nat} {held : Nat → Option Value} {i i' j : Nat}
  {last last' : Value} {τ τ' : Store} {o : Outcome}

/-- What was walked before may be added. -/
theorem after {k : Nat} (h : Steps (Walk.step program) k (⟨i, last⟩, τ) (⟨i', last'⟩, τ'))
    (h' : Arrives program n held i' j last' τ' o) : Arrives program n held i j last τ o := by
  cases h' with
  | ok hsteps ht => exact .ok (h.trans hsteps) ht
  | error hends ht => exact .error (h.endsWith_iff.2 hends) ht

/-- The first step may be left out. -/
theorem behind (h : Walk.step program (⟨i, last⟩, τ) = .running (⟨i', last'⟩, τ')) (hij : i ≠ j)
    (h' : Arrives program n held i j last τ o) : Arrives program n held i' j last' τ' o := by
  cases h' with
  | ok hsteps ht =>
    cases hsteps with
    | refl => exact absurd rfl hij
    | head hs hrest =>
      rw [h] at hs
      cases hs
      exact .ok hrest ht
  | error hends ht => exact .error ((Steps.single h).endsWith_iff.1 hends) ht

/-- A step may be added at the end. -/
theorem before (hstep : ∀ v σ, Walk.step program (⟨i', v⟩, σ) = .running (⟨j, v⟩, σ))
    (h : Arrives program n held i i' last τ o) : Arrives program n held i j last τ o := by
  cases h with
  | ok hsteps ht => exact .ok (hsteps.trans (.single (hstep _ _))) ht
  | error hends ht => exact .error hends ht

/-- Bounds of loops inside may be forgotten. -/
theorem weaken {m : Nat} {held' : Nat → Option Value} (hm : n ≤ m)
    (hheld : ∀ k ≤ n, held' k = held k) (h : Arrives program m held' i j last τ o) :
    Arrives program n held i j last τ o := by
  have hweaken {σ τ : Store} (ht : Tracks m held' σ τ) : Tracks n held σ τ :=
    ⟨ht.agrees, fun k hk => (ht.held k (Nat.le_trans hk hm)).trans (hheld k hk)⟩
  cases h with
  | ok hsteps ht => exact .ok hsteps (hweaken ht)
  | error hends ht => exact .error hends (hweaken ht)

end Arrives

/-- A hidden bound that is set is held from then on, besides those that were held before. -/
theorem Tracks.hold {n m : Nat} {held : Nat → Option Value} {σ τ : Store} (h : Tracks n held σ τ)
    (hm : n < m) (v : Value) :
    ∃ held', held' m = some v ∧ (∀ k ≤ n, held' k = held k) ∧
      Tracks m held' σ { τ with bindings := τ.bindings.set (hiddenBound m) v } := by
  refine ⟨fun k => (τ.bindings.set (hiddenBound m) v).find? (hiddenBound k), ?_, ?_, ?_⟩
  · simp only [Bindings.find?_set, Variable.same_self, if_true]
  · intro k hk
    dsimp only
    rw [Bindings.find?_set, if_neg fun hs => absurd (same_hiddenBound_iff.1 hs) (by omega)]
    exact h.held k hk
  · refine ⟨⟨h.agrees.console, fun x hx => ?_⟩, fun k _ => rfl⟩
    rw [Bindings.find?_set, if_neg, h.agrees.visible x hx]
    rw [Variable.same_comm]
    exact not_same_hiddenBound hx m

mutual

/-- What a statement runs to, its lowered form gets to. -/
theorem arrives_of_runs {program : List Stmt} (hn : (marks program).Nodup) : {s : Stmt} → {last : Value} → {σ : Store} → {o : Outcome} →
    Runs s last σ o → s.Structured → s.Visible → {c : Counters} → {n : Nat} →
    {held : Nat → Option Value} → {i : Nat} → {τ : Store} → n ≤ c.bounds →
    Placed program i (s.lowerFrom c).1 → Tracks n held σ τ →
    Arrives program n held i (i + (s.lowerFrom c).1.length) last τ o
  | _, _, _, _, .block h, hs, hv, _, _, _, _, _, hc, hp, ht =>
    arrives_of_runsAll hn h hs hv hc hp ht
  | .declare x init, last, σ, _, .declare, _, hv, c, n, held, i, τ, _, hp, ht => by
    have hassign : Parallel n held _ _ := parallel_assignFrom hv.1 hv.2
    cases hr : assignFrom x init σ with
    | ok v σ' =>
      obtain ⟨τ', hτ, ht'⟩ := hassign.ok ht hr
      exact .ok (.single (Walk.step_declare_ok hp.head hτ)) ht'
    | error error σ' =>
      obtain ⟨τ', hτ, ht'⟩ := hassign.error ht hr
      exact .error (endsWith_of_finished (Walk.step_declare_error hp.head hτ)) ht'
  | .expr e, last, σ, _, .expr, _, hv, c, n, held, i, τ, _, hp, ht => by
    have heval : Parallel n held _ _ := parallel_eval e hv
    cases hr : e.eval σ with
    | ok v σ' =>
      obtain ⟨τ', hτ, ht'⟩ := heval.ok ht hr
      exact .ok (.single (Walk.step_expr_ok hp.head hτ)) ht'
    | error error σ' =>
      obtain ⟨τ', hτ, ht'⟩ := heval.error ht hr
      exact .error (endsWith_of_finished (Walk.step_expr_error hp.head hτ)) ht'
  | _, _, _, _, .ifThenFails h, hs, hv, c, n, held, i, τ, hc, hp, ht => by
    obtain ⟨τ', hτ, ht'⟩ := (parallel_test hv.1).error ht h
    exact .error (endsWith_of_finished (Walk.step_gotoIf_error hp.head hτ)) ht'
  | _, _, _, _, .ifThenTrue h hyes, hs, hv, c, _, _, _, _, hc, hp, ht => by
    obtain ⟨τ', hτ, ht'⟩ := (parallel_test hv.1).ok ht h
    have hat := ifThenAt hn hp
    have hbody := arrives_of_runs hn hyes hs hv.2 (c := c.take 1 0) hc hat.body ht'
    exact (hbody.before fun v σ => hat.behind ▸ Walk.step_label hat.close).after
      (.single (Walk.step_gotoIf_pass hat.test hτ (by decide)))
  | _, _, _, _, .ifThenFalse h, _, hv, _, _, _, _, _, _, hp, ht => by
    obtain ⟨τ', hτ, ht'⟩ := (parallel_test hv.1).ok ht h
    have hat := ifThenAt hn hp
    exact .ok (.single (Walk.step_gotoIf_jump hat.test hτ hat.exit)) ht'
  | _, _, _, _, .ifElseFails h, _, hv, c, _, _, _, _, _, hp, ht => by
    obtain ⟨τ', hτ, ht'⟩ := (parallel_test hv.1).error ht h
    rw [lowerFrom_ifElse] at hp
    exact .error (endsWith_of_finished (Walk.step_gotoIf_error hp.head hτ)) ht'
  | _, _, _, _, .ifElseTrue h hyes, hs, hv, c, _, _, _, _, hc, hp, ht => by
    obtain ⟨τ', hτ, ht'⟩ := (parallel_test hv.1).ok ht h
    rw [lowerFrom_ifElse] at hp ⊢
    have hat := ifElseAt hn hp
    have hbody := arrives_of_runs hn hyes hs.1 hv.2.1 (c := c.take 2 0) hc hat.yes ht'
    exact (hbody.before fun v σ => Walk.step_goto hat.skip hat.exit).after
      (.single (Walk.step_gotoIf_pass hat.test hτ (by decide)))
  | .ifElse _ yes _, _, _, _, .ifElseFalse h hno, hs, hv, c, _, _, _, _, hc, hp, ht => by
    obtain ⟨τ', hτ, ht'⟩ := (parallel_test hv.1).ok ht h
    rw [lowerFrom_ifElse] at hp ⊢
    have hat := ifElseAt hn hp
    have hcounters := (numbered_lowerFrom yes hs.1 (c.take 2 0)).bounds
    have hbody := arrives_of_runs hn hno hs.2 hv.2.2 (Nat.le_trans hc hcounters) hat.no ht'
    exact (hbody.before fun v σ => hat.behind ▸ Walk.step_label hat.close).after
      (.single (Walk.step_gotoIf_jump hat.test hτ hat.other))
  | _, _, _, _, .whileFails h, _, hv, _, _, _, _, _, _, hp, ht => by
    obtain ⟨τ', hτ, ht'⟩ := (parallel_test hv.1).error ht h
    have hat := whileAt hn hp
    exact (Arrives.error (endsWith_of_finished (Walk.step_gotoIf_error hat.test hτ)) ht').after
      (.single (Walk.step_label hat.enter))
  | _, _, _, _, .whileDone h, _, hv, _, _, _, _, _, _, hp, ht => by
    obtain ⟨τ', hτ, ht'⟩ := (parallel_test hv.1).ok ht h
    have hat := whileAt hn hp
    exact .ok (.head (Walk.step_label hat.enter)
      (.single (Walk.step_gotoIf_jump hat.test hτ hat.exit))) ht'
  | _, _, _, _, .whileBodyFails h hbody, hs, hv, c, _, _, _, _, hc, hp, ht => by
    obtain ⟨τ', hτ, ht'⟩ := (parallel_test hv.1).ok ht h
    have hat := whileAt hn hp
    have hbody := arrives_of_runs hn hbody hs hv.2 (c := c.take 2 0) hc hat.body ht'
    cases hbody with
    | error hends ht'' =>
      exact (Arrives.error hends ht'').after (.head (Walk.step_label hat.enter)
        (.single (Walk.step_gotoIf_pass hat.test hτ (by decide))))
  | _, _, _, _, .whileAgain h hbody hagain, hs, hv, c, _, _, _, _, hc, hp, ht => by
    obtain ⟨τ', hτ, ht'⟩ := (parallel_test hv.1).ok ht h
    have hat := whileAt hn hp
    have hbody := arrives_of_runs hn hbody hs hv.2 (c := c.take 2 0) hc hat.body ht'
    cases hbody with
    | ok hsteps ht'' =>
      have hloop := arrives_of_runs hn hagain hs hv hc hp ht''
      have hback := hloop.behind (Walk.step_label hat.enter) fun heq =>
        absurd (heq.trans hat.behind.symm) (by omega)
      exact hback.after (.head (Walk.step_label hat.enter)
        (.head (Walk.step_gotoIf_pass hat.test hτ (by decide))
          (hsteps.trans (.single (Walk.step_goto hat.back hat.again)))))
  | _, _, _, _, .doBodyFails hbody, hs, hv, c, _, _, _, _, hc, hp, ht => by
    have hat := doAt hn hp
    have hbody := arrives_of_runs hn hbody hs hv.1 (c := c.take 2 0) hc hat.body ht
    cases hbody with
    | error hends ht' =>
      exact (Arrives.error hends ht').after (.single (Walk.step_label hat.enter))
  | _, _, _, _, .doFails hbody h, hs, hv, c, _, _, _, _, hc, hp, ht => by
    have hat := doAt hn hp
    have hbody := arrives_of_runs hn hbody hs hv.1 (c := c.take 2 0) hc hat.body ht
    cases hbody with
    | ok hsteps ht' =>
      obtain ⟨τ', hτ, ht''⟩ := (parallel_test hv.2).error ht' h
      exact (Arrives.error (endsWith_of_finished (Walk.step_gotoIf_error hat.test hτ)) ht'').after
        (.head (Walk.step_label hat.enter) hsteps)
  | _, _, _, _, .doDone hbody h, hs, hv, c, _, _, _, _, hc, hp, ht => by
    have hat := doAt hn hp
    have hbody := arrives_of_runs hn hbody hs hv.1 (c := c.take 2 0) hc hat.body ht
    cases hbody with
    | ok hsteps ht' =>
      obtain ⟨τ', hτ, ht''⟩ := (parallel_test hv.2).ok ht' h
      exact .ok (.head (Walk.step_label hat.enter) (hsteps.trans
        (.head (Walk.step_gotoIf_pass hat.test hτ (by decide))
          (.single (hat.behind ▸ Walk.step_label hat.close))))) ht''
  | _, _, _, _, .doAgain hbody h hagain, hs, hv, c, _, _, _, _, hc, hp, ht => by
    have hat := doAt hn hp
    have hbody := arrives_of_runs hn hbody hs hv.1 (c := c.take 2 0) hc hat.body ht
    cases hbody with
    | ok hsteps ht' =>
      obtain ⟨τ', hτ, ht''⟩ := (parallel_test hv.2).ok ht' h
      have hloop := arrives_of_runs hn hagain hs hv hc hp ht''
      have hback := hloop.behind (Walk.step_label hat.enter) fun heq =>
        absurd (heq.trans hat.behind.symm) (by omega)
      exact hback.after (.head (Walk.step_label hat.enter)
        (hsteps.trans (.single (Walk.step_gotoIf_jump hat.test hτ hat.again))))
  | _, _, _, _, .countLowerFails h, _, hv, _, _, _, _, _, _, hp, ht => by
    obtain ⟨τ', hτ, ht'⟩ := (parallel_assignFrom hv.1 hv.2.1).error ht h
    exact .error (endsWith_of_finished (Walk.step_declare_error hp.head hτ)) ht'
  | _, _, _, _, .countUpperFails h hupper, _, hv, _, _, _, _, _, _, hp, ht => by
    obtain ⟨τ', hτ, ht'⟩ := (parallel_assignFrom hv.1 hv.2.1).ok ht h
    obtain ⟨τ'', hτ', ht''⟩ := (parallel_eval _ hv.2.2.1).error ht' hupper
    exact (Arrives.error (endsWith_of_finished
      (Walk.step_declare_error hp.tail.head (assignFrom_error hτ'))) ht'').after
        (.single (Walk.step_declare_ok hp.head hτ))
  | .count x lower upper body, _, _, _, .count h hupper hrepeats, hs, hv, c, _, _, i, _, hc, hp,
      ht => by
    obtain ⟨τ', hτ, ht'⟩ := (parallel_assignFrom hv.1 hv.2.1).ok ht h
    obtain ⟨τ'', hτ', ht''⟩ := (parallel_eval _ hv.2.2.1).ok ht' hupper
    obtain ⟨held', hb, hheld, ht'''⟩ := ht''.hold (Nat.lt_succ_of_le hc) _
    have hat := countingAt hn hp.tail.tail
    have hloop := arrives_of_repeats hn hrepeats hv.1 hs hv.2.2.2 (c := c.take 2 1)
      (Nat.le_refl _) hb hat ht'''
    have hend : i + 1 + 1 + (Stmt.label (c.label 0) :: countingCode x c.bound (c.label 0)
        (c.label 1) (body.lowerFrom (c.take 2 1)).1).length =
        i + ((Stmt.count x lower upper body).lowerFrom c).1.length := by
      simp only [lowerFrom_count, List.length_cons]
      omega
    rw [hend] at hloop
    exact (hloop.weaken (Nat.le_succ_of_le hc) hheld).after
      (.head (Walk.step_declare_ok hp.head hτ)
        (.head (Walk.step_declare_ok hp.tail.head (assignFrom_ok hτ'))
          (.single (Walk.step_label hp.tail.tail.head))))

theorem arrives_of_runsAll {program : List Stmt} (hn : (marks program).Nodup) : {body : List Stmt} → {last : Value} → {σ : Store} → {o : Outcome} →
    RunsAll body last σ o → Stmt.AllStructured body → Stmt.AllVisible body → {c : Counters} →
    {n : Nat} → {held : Nat → Option Value} → {i : Nat} → {τ : Store} → n ≤ c.bounds →
    Placed program i (Stmt.lowerAllFrom c body).1 → Tracks n held σ τ →
    Arrives program n held i (i + (Stmt.lowerAllFrom c body).1.length) last τ o
  | _, _, _, _, .nil, _, _, _, _, _, _, _, _, _, ht => .ok .refl ht
  | _, _, _, _, .fails h, hs, hv, c, _, _, _, _, hc, hp, ht => by
    rw [lowerAllFrom_cons] at hp
    have hfirst := arrives_of_runs hn h hs.1 hv.1 hc hp.left ht
    cases hfirst with
    | error hends ht' => exact .error hends ht'
  | s :: _, _, _, _, .cons h hrest, hs, hv, c, _, _, _, _, hc, hp, ht => by
    rw [lowerAllFrom_cons] at hp ⊢
    have hfirst := arrives_of_runs hn h hs.1 hv.1 hc hp.left ht
    have hcounters := (numbered_lowerFrom s hs.1 c).bounds
    rw [List.length_append, ← Nat.add_assoc]
    cases hfirst with
    | ok hsteps ht' =>
      exact (arrives_of_runsAll hn hrest hs.2 hv.2 (Nat.le_trans hc hcounters) hp.right ht').after
        hsteps

/-- The loop proper, from its test on. -/
theorem arrives_of_repeats {program : List Stmt} (hn : (marks program).Nodup) : {x : Variable} → {bound : Value} → {body : Stmt} → {last : Value} →
    {σ : Store} → {o : Outcome} → Repeats x bound body last σ o → x.Visible → body.Structured →
    body.Visible → {c : Counters} → {first final : JumpLabel} → {n : Nat} →
    {held : Nat → Option Value} → {i j : Nat} → {τ : Store} → n ≤ c.bounds →
    held n = some bound →
    CountingAt program i x (hiddenBound n) first final (body.lowerFrom c).1 j →
    Tracks n held σ τ → Arrives program n held i j last τ o
  | _, _, _, _, _, _, .fails h, hx, _, _, _, _, _, _, _, _, _, _, _, hb, hat, ht => by
    obtain ⟨τ', hτ, ht'⟩ := (parallel_atMost hx (Nat.le_refl _) hb).error ht h
    exact .error (endsWith_of_finished (Walk.step_gotoIf_error hat.test hτ)) ht'
  | _, _, _, _, _, _, .done h, hx, _, _, _, _, _, _, _, _, _, _, _, hb, hat, ht => by
    obtain ⟨τ', hτ, ht'⟩ := (parallel_atMost hx (Nat.le_refl _) hb).ok ht h
    exact .ok (.single (Walk.step_gotoIf_jump hat.test hτ hat.exit)) ht'
  | _, _, _, _, _, _, .bodyFails h hbody, hx, hs, hv, _, _, _, _, _, _, _, _, hc, hb, hat, ht => by
    obtain ⟨τ', hτ, ht'⟩ := (parallel_atMost hx (Nat.le_refl _) hb).ok ht h
    have hbody := arrives_of_runs hn hbody hs hv hc hat.body ht'
    cases hbody with
    | error hends ht'' =>
      exact (Arrives.error hends ht'').after
        (.single (Walk.step_gotoIf_pass hat.test hτ (by decide)))
  | _, _, _, _, _, _, .stepFails h hbody hstep, hx, hs, hv, _, _, _, _, _, _, _, _, hc, hb, hat,
      ht => by
    obtain ⟨τ', hτ, ht'⟩ := (parallel_atMost hx (Nat.le_refl _) hb).ok ht h
    have hbody := arrives_of_runs hn hbody hs hv hc hat.body ht'
    cases hbody with
    | ok hsteps ht'' =>
      obtain ⟨τ'', hτ'', ht'''⟩ := (parallel_stepUp hx).error ht'' hstep
      exact (Arrives.error (endsWith_of_finished (Walk.step_expr_error hat.step hτ'')) ht''').after
        (.head (Walk.step_gotoIf_pass hat.test hτ (by decide)) hsteps)
  | _, _, _, _, _, _, .again h hbody hstep hagain, hx, hs, hv, _, _, _, _, _, _, _, _, hc, hb, hat,
      ht => by
    obtain ⟨τ', hτ, ht'⟩ := (parallel_atMost hx (Nat.le_refl _) hb).ok ht h
    have hbody := arrives_of_runs hn hbody hs hv hc hat.body ht'
    cases hbody with
    | ok hsteps ht'' =>
      obtain ⟨τ'', hτ'', ht'''⟩ := (parallel_stepUp hx).ok ht'' hstep
      have hloop := arrives_of_repeats hn hagain hx hs hv hc hb hat ht'''
      exact hloop.after (.head (Walk.step_gotoIf_pass hat.test hτ (by decide))
        (hsteps.trans (.head (Walk.step_expr_ok hat.step hτ'')
          (.single (Walk.step_goto hat.back hat.again)))))

end

end SnippetLang.Typed
