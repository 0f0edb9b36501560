import SnippetLang.Proofs.Lowering.Tracking
import SnippetLang.Proofs.Running.Observing
import SnippetLang.Proofs.Safety.Evaluation
import SnippetLang.Proofs.Safety.Programs

/-!
# Walks through the body of a loop

A piece of lowered code is entered at its first index and left behind its last one: its jumps stay
inside, and they never go back to the first index.  On the way it changes the variables that it
declares or assigns only.
-/

namespace SnippetLang.Typed

/-! ### The variables that a statement changes -/

mutual

/-- The variables that a statement declares or assigns. -/
def Stmt.assigned : Stmt → List Variable
  | .block body => Stmt.assignedAll body
  | .declare x init => init.assigned ++ [x]
  | .expr e => e.assigned
  | .ifThen condition yes => condition.assigned ++ yes.assigned
  | .ifElse condition yes no => condition.assigned ++ (yes.assigned ++ no.assigned)
  | .whileDo condition body => condition.assigned ++ body.assigned
  | .doWhile body condition => body.assigned ++ condition.assigned
  | .count x lower upper body => lower.assigned ++ (x :: (upper.assigned ++ body.assigned))
  | .goto _ => []
  | .gotoIf _ condition _ => condition.assigned
  | .label _ => []
  | .result _ => []

/-- The variables that the statements of a list declare or assign. -/
def Stmt.assignedAll : List Stmt → List Variable
  | [] => []
  | s :: rest => s.assigned ++ Stmt.assignedAll rest

end

theorem assignedAll_append (p q : List Stmt) :
    Stmt.assignedAll (p ++ q) = Stmt.assignedAll p ++ Stmt.assignedAll q := by
  induction p with
  | nil => rfl
  | cons s rest ih => simp only [List.cons_append, Stmt.assignedAll, ih, List.append_assoc]

theorem assigned_subset_assignedAll {s : Stmt} {code : List Stmt} (hs : s ∈ code) :
    s.assigned ⊆ Stmt.assignedAll code := by
  induction code with
  | nil => cases hs
  | cons t rest ih =>
    rcases List.mem_cons.1 hs with rfl | hs
    · exact List.subset_append_left _ _
    · exact fun y hy => List.mem_append_right _ (ih hs hy)

/-- A hidden bound was given out between some counters and others. -/
def HiddenBetween (c c' : Counters) (y : Variable) : Prop :=
  ∃ k, c.bounds < k ∧ k ≤ c'.bounds ∧ y = hiddenBound k

theorem HiddenBetween.mono {c c' d d' : Counters} {y : Variable} (h : HiddenBetween c c' y)
    (hc : d.bounds ≤ c.bounds) (hc' : c'.bounds ≤ d'.bounds) : HiddenBetween d d' y := by
  obtain ⟨k, hk, hk', rfl⟩ := h
  exact ⟨k, Nat.lt_of_le_of_lt hc hk, Nat.le_trans hk' hc', rfl⟩

mutual

/-- Lowered code changes what the statement changes, and the hidden bounds of its loops. -/
theorem mem_assigned_of_lowerFrom : (s : Stmt) → s.Structured → (c : Counters) →
    ∀ y ∈ Stmt.assignedAll (s.lowerFrom c).1,
      y ∈ s.assigned ∨ HiddenBetween c (s.lowerFrom c).2 y
  | .block body, hs, c => mem_assigned_of_lowerAllFrom body hs c
  | .declare x init, _, c => fun y hy => .inl (by simpa [Stmt.lowerFrom, Stmt.assignedAll] using hy)
  | .expr e, _, c => fun y hy => .inl (by simpa [Stmt.lowerFrom, Stmt.assignedAll] using hy)
  | .ifThen e yes, hs, c => by
    intro y hy
    have hyes := mem_assigned_of_lowerFrom yes hs (c.take 1 0) y
    simp only [lowerFrom_ifThen, Stmt.assignedAll, Stmt.assigned, assignedAll_append,
      List.append_nil, List.mem_append] at hy ⊢
    rcases hy with hy | hy
    · exact .inl (.inl hy)
    · exact (hyes hy).imp_left .inr
  | .ifElse e yes no, hs, c => by
    intro y hy
    have hyes := mem_assigned_of_lowerFrom yes hs.1 (c.take 2 0) y
    have hno := mem_assigned_of_lowerFrom no hs.2 (yes.lowerFrom (c.take 2 0)).2 y
    have hfirst := (numbered_lowerFrom yes hs.1 (c.take 2 0)).bounds
    have hsecond := (numbered_lowerFrom no hs.2 (yes.lowerFrom (c.take 2 0)).2).bounds
    simp only [lowerFrom_ifElse, Stmt.assignedAll, Stmt.assigned, assignedAll_append,
      List.append_nil, List.nil_append, List.mem_append] at hy ⊢
    rcases hy with hy | hy | hy
    · exact .inl (.inl hy)
    · exact (hyes hy).imp (.inr ∘ .inl) (·.mono (Nat.le_refl _) hsecond)
    · exact (hno hy).imp (.inr ∘ .inr) (·.mono hfirst (Nat.le_refl _))
  | .whileDo e body, hs, c => by
    intro y hy
    have hbody := mem_assigned_of_lowerFrom body hs (c.take 2 0) y
    simp only [lowerFrom_whileDo, Stmt.assignedAll, Stmt.assigned, assignedAll_append,
      List.append_nil, List.nil_append, List.mem_append] at hy ⊢
    rcases hy with hy | hy
    · exact .inl (.inl hy)
    · exact (hbody hy).imp_left .inr
  | .doWhile body e, hs, c => by
    intro y hy
    have hbody := mem_assigned_of_lowerFrom body hs (c.take 2 0) y
    simp only [lowerFrom_doWhile, Stmt.assignedAll, Stmt.assigned, assignedAll_append,
      List.append_nil, List.nil_append, List.mem_append] at hy ⊢
    rcases hy with hy | hy
    · exact (hbody hy).imp_left .inl
    · exact .inl (.inr hy)
  | .count x lower upper body, hs, c => by
    intro y hy
    have hbody := mem_assigned_of_lowerFrom body hs (c.take 2 1) y
    have hnumbered : c.bounds + 1 ≤ _ := (numbered_lowerFrom body hs (c.take 2 1)).bounds
    simp only [lowerFrom_count, countingCode, increment, withinBound, Stmt.assignedAll,
      Stmt.assigned, Expr.assigned, assignedAll_append, List.append_nil, List.nil_append,
      List.mem_append, List.mem_cons, List.not_mem_nil, or_false] at hy ⊢
    rcases hy with (hy | hy) | (hy | hy) | hy | hy
    · exact .inl (.inl hy)
    · exact .inl (.inr (.inl hy))
    · exact .inl (.inr (.inr (.inl hy)))
    · exact .inr ⟨c.bounds + 1, Nat.lt_succ_self _, hnumbered, hy⟩
    · exact (hbody hy).imp (.inr ∘ .inr ∘ .inr) (·.mono (Nat.le_succ _) (Nat.le_refl _))
    · exact .inl (.inr (.inl hy))

theorem mem_assigned_of_lowerAllFrom : (body : List Stmt) → Stmt.AllStructured body →
    (c : Counters) → ∀ y ∈ Stmt.assignedAll (Stmt.lowerAllFrom c body).1,
      y ∈ Stmt.assignedAll body ∨ HiddenBetween c (Stmt.lowerAllFrom c body).2 y
  | [], _, c => fun y hy => .inl hy
  | s :: rest, hs, c => by
    intro y hy
    have hfirst := (numbered_lowerFrom s hs.1 c).bounds
    have hsecond := (numbered_lowerAllFrom rest hs.2 (s.lowerFrom c).2).bounds
    simp only [lowerAllFrom_cons, Stmt.assignedAll, assignedAll_append, List.mem_append] at hy ⊢
    rcases hy with hy | hy
    · exact (mem_assigned_of_lowerFrom s hs.1 c y hy).imp .inl (·.mono (Nat.le_refl _) hsecond)
    · exact (mem_assigned_of_lowerAllFrom rest hs.2 _ y hy).imp .inr
        (·.mono hfirst (Nat.le_refl _))

end

/-! ### One step inside a piece of code -/

namespace Walk

variable {program code : List Stmt} {a : Nat} {p q : Place} {σ τ : Store}

theorem jump_eq_ok {l : JumpLabel} {last : Value} {j : Nat} (hj : labelTarget? l program = some j)
    (h : jump program l last σ = .ok q τ) : q.index = j ∧ τ = σ := by
  unfold jump at h
  rw [hj] at h
  cases h
  exact ⟨rfl, rfl⟩

/-- Where a statement of a piece of code goes on: inside the piece or behind it, not at its first
    index. -/
theorem execute_inside {s : Stmt} (hs : s.Executable code)
    (htargets : ∀ l, .label l ∈ code →
      ∃ j, labelTarget? l program = some j ∧ a < j ∧ j ≤ a + code.length)
    (ha : a ≤ p.index) (hp : p.index < a + code.length)
    (h : execute program p s σ = .ok q τ) :
    a < q.index ∧ q.index ≤ a + code.length ∧ SameOutside s.assigned σ τ := by
  cases hs with
  | @declare x init _ _ _ =>
    obtain ⟨v, υ, hv, hset⟩ := eval_bind_eq_ok h
    cases hset
    refine ⟨by simp only; omega, by simp only; omega, ?_⟩
    exact ((eval_sameOutside_assigned init hv).mono (List.subset_append_left _ [x])).trans
      ((SameOutside.set υ x v).mono (List.subset_append_right _ [x]))
  | @expr e _ =>
    obtain ⟨v, υ, hv, hnext⟩ := eval_bind_eq_ok h
    cases hnext
    exact ⟨by simp only; omega, by simp only; omega, eval_sameOutside_assigned e hv⟩
  | @goto l hl =>
    obtain ⟨j, hj, hlow, hhigh⟩ := htargets l hl
    obtain ⟨rfl, rfl⟩ := jump_eq_ok hj h
    exact ⟨hlow, hhigh, SameOutside.refl _ _⟩
  | @gotoIf l c jumpIf hl _ _ =>
    obtain ⟨j, hj, hlow, hhigh⟩ := htargets l hl
    obtain ⟨v, υ, hv, hrest⟩ := eval_bind_eq_ok h
    obtain ⟨b, υ', hb, hgo⟩ := eval_bind_eq_ok hrest
    obtain rfl := lift_eq_ok hb
    have hsame := eval_sameOutside_assigned c hv
    split at hgo
    · obtain ⟨rfl, rfl⟩ := jump_eq_ok hj hgo
      exact ⟨hlow, hhigh, hsame⟩
    · cases hgo
      exact ⟨by simp only; omega, by simp only; omega, hsame⟩
  | label =>
    cases h
    exact ⟨by simp only; omega, by simp only; omega, SameOutside.refl _ _⟩

section

variable (hn : (marks program).Nodup) (hplaced : Placed program a code)
  (hcode : ExecutableIn code code)

include hn hplaced hcode

theorem step_inside {state next : Place × Store} (ha : a ≤ state.1.index)
    (hp : state.1.index < a + code.length) (h : step program state = .running next) :
    a < next.1.index ∧ next.1.index ≤ a + code.length ∧
      SameOutside (Stmt.assignedAll code) state.2 next.2 := by
  have htargets : ∀ l, .label l ∈ code →
      ∃ j, labelTarget? l program = some j ∧ a < j ∧ j ≤ a + code.length := by
    intro l hl
    obtain ⟨k, hk⟩ := List.mem_iff_getElem?.1 hl
    have hlt := (List.getElem?_eq_some_iff.1 hk).1
    refine ⟨a + k + 1, labelTarget?_of_nodup hn ?_, by omega, by omega⟩
    rw [hplaced.getElem? hlt, hk]
  obtain ⟨s, hs⟩ := getElem?_of_step h
  have hmem : s ∈ code := by
    have hindex : state.1.index = a + (state.1.index - a) := by omega
    rw [hindex, hplaced.getElem? (by omega)] at hs
    exact List.mem_of_getElem? hs
  unfold step at h
  rw [hs] at h
  dsimp only at h
  split at h
  · next q τ hexecute =>
    cases h
    obtain ⟨hlow, hhigh, hsame⟩ := execute_inside (hcode s hmem) htargets ha hp hexecute
    exact ⟨hlow, hhigh, hsame.mono (assigned_subset_assignedAll hmem)⟩
  · cases h

/-! ### The way through a piece of code -/

/-- A walk that comes from the first index of a piece of code to the index behind it goes through
    the piece, and the first time that it leaves the piece it is there. -/
theorem through_code {v w : Value} {υ : Store}
    (h : Reaches (step program) (⟨a, v⟩, σ) (⟨a + code.length, w⟩, υ)) :
    ∃ k w' τ, Through (step program)
        (fun state => a ≤ state.1.index ∧ state.1.index < a + code.length) k
        (⟨a, v⟩, σ) (⟨a + code.length, w'⟩, τ) ∧
      SameOutside (Stmt.assignedAll code) σ τ := by
  obtain ⟨n, hsteps⟩ := h
  obtain ⟨k, ⟨⟨j, w'⟩, τ⟩, hthrough, hout⟩ := hsteps.leaves
    (fun state => a ≤ state.1.index ∧ state.1.index < a + code.length)
    (fun hin => Nat.lt_irrefl _ hin.2)
  obtain ⟨-, hlow, hhigh, hsame⟩ := hthrough.keeps
    (p := fun state => a ≤ state.1.index ∧ state.1.index ≤ a + code.length ∧
      SameOutside (Stmt.assignedAll code) σ state.2)
    (fun s t hin hs hstep => by
      obtain ⟨hlow, hhigh, hsame⟩ := step_inside hn hplaced hcode hin.1 hin.2 hstep
      exact ⟨Nat.le_of_lt hlow, hhigh, hs.2.2.trans hsame⟩)
    ⟨Nat.le_refl a, Nat.le_add_right _ _, SameOutside.refl _ _⟩
  obtain rfl : j = a + code.length := by
    simp only at hlow hhigh hout
    omega
  exact ⟨k, w', τ, hthrough, hsame⟩

/-- On the way through a piece of code the first index is seen once. -/
theorem observed_code {v w : Value} {k : Nat} {x : Variable} (hlength : 0 < code.length)
    (h : Through (step program)
      (fun state => a ≤ state.1.index ∧ state.1.index < a + code.length) k
      (⟨a, v⟩, σ) (⟨a + code.length, w⟩, τ)) :
    observed (step program) (reading a x) k (⟨a, v⟩, σ) = [σ.bindings.read x] := by
  generalize hs : ((⟨a, v⟩, σ) : Place × Store) = s at h
  generalize ht : ((⟨a + code.length, w⟩, τ) : Place × Store) = t at h
  cases h with
  | refl =>
    have hindex : a = a + code.length := congrArg (·.1.index) (hs.trans ht.symm)
    omega
  | @head k _ u _ hin hstep hrest =>
    subst hs
    have hforward := step_inside hn hplaced hcode hin.1 hin.2 hstep
    obtain ⟨hlater, -⟩ := hrest.keeps (p := fun state => a < state.1.index)
      (fun s t hin _ hstep => (step_inside hn hplaced hcode hin.1 hin.2 hstep).1) hforward.1
    rw [hlater.observed_head hstep fun state h => reading_of_ne (Nat.ne_of_gt h.2), reading_self]
    rfl

end

end Walk

end SnippetLang.Typed
