import SnippetLang.Proofs.Counting.Bodies

/-!
# The turns of a counting loop

From its test on, a counting loop takes a turn as long as its counter is at most its bound.  A turn
goes through the body once, with the counter as it was at the test, and then steps the counter up.
What one turn does is added up to what any number of turns do.
-/

namespace SnippetLang.Typed

/-! ### Counting up -/

/-- The number so many steps up from another one, wrapping around. -/
def upFrom (n : Int32) (s : Nat) : Int32 := Int32.ofInt (n.toInt + s)

/-- The first values of a counter that starts at a number. -/
def counted (n : Int32) (t : Nat) : List Value := (List.range t).map fun s => .int (upFrom n s)

/-- How many numbers there are from one number to another. -/
def numbersTo (lo hi : Int32) : Nat := (hi.toInt - lo.toInt + 1).toNat

section

variable {n lo hi : Int32} {s t : Nat}

@[simp] theorem upFrom_zero (n : Int32) : upFrom n 0 = n := by
  simp [upFrom]

theorem upFrom_add_one (n : Int32) (s : Nat) : upFrom n s + 1 = upFrom n (s + 1) := by
  rw [upFrom, upFrom, Int.natCast_succ, ← Int.add_assoc, Int32.ofInt_add (n.toInt + s)]
  rfl

theorem counted_succ (n : Int32) (t : Nat) :
    counted n (t + 1) = counted n t ++ [.int (upFrom n t)] := by
  simp [counted, List.range_succ]

/-- Up to the greatest number nothing wraps around. -/
theorem toInt_upFrom (h : n.toInt + s ≤ Int32.maxValue.toInt) :
    (upFrom n s).toInt = n.toInt + s := by
  rw [Int32.toInt_maxValue] at h
  have := n.le_toInt
  exact Int32.toInt_ofInt_of_le (by omega) (by omega)

theorem upFrom_le (hs : s < numbersTo lo hi) : upFrom lo s ≤ hi := by
  unfold numbersTo at hs
  have hmax := hi.toInt_le
  rw [Int32.le_iff_toInt_le, toInt_upFrom (by omega)]
  omega

/-- Behind the last number there is a greater one, unless the last is the greatest of all. -/
theorem not_upFrom_le (hhi : hi ≠ Int32.maxValue) : ¬ upFrom lo (numbersTo lo hi) ≤ hi := by
  have hne : hi.toInt ≠ Int32.maxValue.toInt := fun heq => hhi (Int32.toInt_inj.1 heq)
  have hmax := hi.toInt_le
  have hlo := lo.toInt_le
  unfold numbersTo
  rw [Int32.le_iff_toInt_le, toInt_upFrom (by omega)]
  omega

end

/-! ### One turn -/

/-- A store has values for the counter of a loop and for its bound. -/
structure Holding (x bound : Variable) (n m : Int32) (σ : Store) : Prop where
  counter : σ.bindings.read x = .int n
  bound : σ.bindings.read bound = .int m

section

variable {x bound : Variable} {n m : Int32} {σ τ : Store}

theorem test_withinBound (h : Holding x bound n m σ) :
    test (withinBound x bound) σ = .ok (decide (n ≤ m)) σ := by
  simp only [test, withinBound, Expr.eval, readVariable, bind, EStateM.bind, h.counter, h.bound,
    applyBinary, BinaryOperator.intLessOrEquals, BinaryOperator.row, onInts]
  rfl

theorem eval_increment (h : Holding x bound n m σ) :
    (increment x).eval σ =
      .ok (.int (n + 1)) { σ with bindings := σ.bindings.set x (.int (n + 1)) } := by
  simp only [increment, Expr.eval, readVariable, bind, EStateM.bind, h.counter, applyBinary,
    BinaryOperator.intAddition, BinaryOperator.row, onInts]
  rfl

theorem Holding.sameOutside {changed : List Variable} (h : Holding x bound n m σ)
    (hσ : SameOutside changed σ τ)
    (hchanged : ∀ y ∈ changed, y.same x = false ∧ y.same bound = false) :
    Holding x bound n m τ :=
  ⟨(hσ x fun y hy => (hchanged y hy).1).symm.trans h.counter,
    (hσ bound fun y hy => (hchanged y hy).2).symm.trans h.bound⟩

theorem Holding.stepUp (h : Holding x bound n m σ) (hbound : x.same bound = false) :
    Holding x bound (n + 1) m
      { σ with bindings := σ.bindings.set x (.int (n + 1)) } := by
  constructor
  · rw [Bindings.read_set, if_pos (Variable.same_self x)]
  · rw [Bindings.read_set, if_neg (by simp [hbound])]
    exact h.bound

end

namespace Walk

/-- Wherever a walk from a state comes to an index, it goes on to another one. -/
def Passes (program : List Stmt) (state : Place × Store) (i j : Nat) : Prop :=
  ∀ v τ, Reaches (step program) state (⟨i, v⟩, τ) →
    ∃ w υ, Reaches (step program) (⟨i, v⟩, τ) (⟨j, w⟩, υ)

theorem Passes.later {program : List Stmt} {state next : Place × Store} {i j k : Nat}
    (h : Passes program state i j) (hsteps : Steps (step program) k state next) :
    Passes program next i j := by
  rintro v τ ⟨n, hn⟩
  exact h v τ ⟨k + n, hsteps.trans hn⟩

theorem passes_expr {program : List Stmt} {state : Place × Store} {i : Nat} {e : Expr}
    (h : program[i]? = some (.expr e)) (he : ∀ τ, ∃ v υ, e.eval τ = .ok v υ) :
    Passes program state i (i + 1) := by
  rintro v τ -
  obtain ⟨w, υ, hw⟩ := he τ
  exact ⟨w, υ, 1, .single (step_expr_ok h hw)⟩

theorem passes_label {program : List Stmt} {state : Place × Store} {i : Nat} {l : JumpLabel}
    (h : program[i]? = some (.label l)) : Passes program state i (i + 1) := by
  rintro v τ -
  exact ⟨v, τ, 1, .single (step_label h)⟩

/-- Stepping up a counter and jumping back to that never ends. -/
theorem circles {program : List Stmt} {x : Variable} {l : JumpLabel} {i : Nat}
    (hstep : program[i]? = some (.expr (increment x))) (hjump : program[i + 1]? = some (.goto l))
    (hl : labelTarget? l program = some i) {v : Value} {n : Int32} {σ : Store}
    (hσ : σ.bindings.read x = .int n) (m : Nat) : runFor (step program) m (⟨i, v⟩, σ) = none := by
  -- The counter is a number at both places, so stepping it up is never refused.
  let p (state : Place × Store) : Prop :=
    (state.1.index = i ∨ state.1.index = i + 1) ∧ ∃ n, state.2.bindings.read x = .int n
  refine runFor_eq_none (p := p) ?_ ⟨.inl rfl, n, hσ⟩ m
  rintro ⟨⟨k, w⟩, τ⟩ ⟨rfl | rfl, n, hn⟩
  · have hholding : Holding x x n n τ := ⟨hn, hn⟩
    refine ⟨_, step_expr_ok hstep (eval_increment hholding), .inr rfl, n + 1, ?_⟩
    rw [Bindings.read_set, if_pos (Variable.same_self x)]
  · exact ⟨_, step_goto hjump hl, .inl rfl, n, hn⟩

/-- A loop with its test at an index counts: its body stands by itself, and changes neither the
    counter nor the bound, which are apart. -/
structure Counting (program : List Stmt) (i : Nat) (x bound : Variable) (first final : JumpLabel)
    (code : List Stmt) (j : Nat) : Prop where
  distinct : (marks program).Nodup
  layout : CountingAt program i x bound first final code j
  executable : ExecutableIn code code
  changed : ∀ y ∈ Stmt.assignedAll code, y.same x = false ∧ y.same bound = false
  apart : x.same bound = false

namespace Counting

variable {program code : List Stmt} {i j : Nat} {x bound : Variable} {first final : JumpLabel}
  {n m : Int32} {σ : Store} {last : Value}

/-- The turn of a loop whose counter is at most its bound.  The body is entered once and left once,
    with the counter as it was, and behind the turn the counter is stepped up. -/
theorem turn (h : Counting program i x bound first final code j)
    (hσ : Holding x bound n m σ) (hle : n ≤ m)
    (hbody : Passes program (⟨i, last⟩, σ) (i + 1) (i + 1 + code.length)) :
    ∃ k v τ, 0 < k ∧ Steps (step program) k (⟨i, last⟩, σ) (⟨i, v⟩, τ) ∧
      Holding x bound (n + 1) m τ ∧
      ∀ p, p = i + 1 ∨ p = i + 1 + code.length →
        observed (step program) (reading p x) k (⟨i, last⟩, σ) = [.int n] := by
  have htest : step program (⟨i, last⟩, σ) = .running (⟨i + 1, last⟩, σ) :=
    step_gotoIf_pass h.layout.test (test_withinBound hσ) (by simp [hle])
  obtain ⟨w, υ, hpass⟩ := hbody last σ ⟨1, .single htest⟩
  obtain ⟨k, v, τ, hthrough, hsame⟩ := through_code h.distinct h.layout.body h.executable hpass
  have hτ := hσ.sameOutside hsame h.changed
  have hincrement : step program (⟨i + 1 + code.length, v⟩, τ) =
      .running (⟨i + 1 + code.length + 1, .int (n + 1)⟩,
        { τ with bindings := τ.bindings.set x (.int (n + 1)) }) :=
    step_expr_ok h.layout.step (eval_increment hτ)
  have hback : step program (⟨i + 1 + code.length + 1, .int (n + 1)⟩,
      { τ with bindings := τ.bindings.set x (.int (n + 1)) }) = .running (⟨i, .int (n + 1)⟩, _) :=
    step_goto h.layout.back h.layout.again
  have hend : Steps (step program) 2 (⟨i + 1 + code.length, v⟩, τ) _ :=
    .head hincrement (.single hback)
  refine ⟨1 + (k + 2), _, _, by omega,
    (Steps.single htest).trans (hthrough.steps.trans hend), hτ.stepUp h.apart, ?_⟩
  intro p hp
  have hstart : reading p x (⟨i, last⟩, σ) = none := reading_of_ne (by simp only; omega)
  have hjump : reading p x (⟨i + 1 + code.length + 1, .int (n + 1)⟩,
      { τ with bindings := τ.bindings.set x (.int (n + 1)) }) = none :=
    reading_of_ne (by simp only; omega)
  have hwhole : observed (step program) (reading p x) (1 + (k + 2)) (⟨i, last⟩, σ) =
      observed (step program) (reading p x) k (⟨i + 1, last⟩, σ) ++
        (reading p x (⟨i + 1 + code.length, v⟩, τ)).toList := by
    rw [(Steps.single htest).observed_add, hthrough.steps.observed_add, observed_running htest,
      observed_running hincrement, observed_running hback, hstart, hjump]
    simp [observed]
  rw [hwhole]
  by_cases hp : p = i + 1 + code.length
  · -- the step of the counter, where the body is left
    subst hp
    rw [hthrough.observed_eq_nil fun state hin => reading_of_ne (Nat.ne_of_lt hin.2),
      reading_self, hτ.counter]
    rfl
  · -- the first statement of the body
    obtain rfl : p = i + 1 := by omega
    rw [observed_code h.distinct h.layout.body h.executable (by omega) hthrough,
      reading_of_ne (by simp only; omega), hσ.counter]
    rfl

theorem turns (h : Counting program i x bound first final code j)
    (hσ : Holding x bound n m σ)
    (hbody : Passes program (⟨i, last⟩, σ) (i + 1) (i + 1 + code.length)) (t : Nat)
    (hle : ∀ s < t, upFrom n s ≤ m) :
    ∃ k v τ, t ≤ k ∧ Steps (step program) k (⟨i, last⟩, σ) (⟨i, v⟩, τ) ∧
      Holding x bound (upFrom n t) m τ ∧
      ∀ p, p = i + 1 ∨ p = i + 1 + code.length →
        observed (step program) (reading p x) k (⟨i, last⟩, σ) = counted n t := by
  induction t with
  | zero => exact ⟨0, last, σ, Nat.le_refl 0, .refl, by simpa using hσ, fun _ _ => rfl⟩
  | succ t ih =>
    obtain ⟨k, v, τ, hk, hsteps, hτ, hseen⟩ := ih fun s hs => hle s (Nat.lt_succ_of_lt hs)
    obtain ⟨k', w, υ, hpos, hturn, hυ, hseen'⟩ :=
      h.turn hτ (hle t (Nat.lt_succ_self t)) (hbody.later hsteps)
    refine ⟨k + k', w, υ, by omega, hsteps.trans hturn, upFrom_add_one n t ▸ hυ, fun p hp => ?_⟩
    rw [hsteps.observed_add, hseen p hp, hseen' p hp, counted_succ]

/-- A loop whose bound is not the greatest number takes a turn for each number up to its bound, and
    is left. -/
theorem leaves (h : Counting program i x bound first final code j)
    (hσ : Holding x bound n m σ)
    (hbody : Passes program (⟨i, last⟩, σ) (i + 1) (i + 1 + code.length))
    (hm : m ≠ Int32.maxValue) :
    ∃ k v τ, Steps (step program) k (⟨i, last⟩, σ) (⟨j, v⟩, τ) ∧
      ∀ p, p = i + 1 ∨ p = i + 1 + code.length →
        observed (step program) (reading p x) k (⟨i, last⟩, σ) = counted n (numbersTo n m) := by
  obtain ⟨k, v, τ, -, hsteps, hτ, hseen⟩ :=
    h.turns hσ hbody (numbersTo n m) fun s hs => upFrom_le hs
  have hdone : test (withinBound x bound) τ = .ok false τ := by
    rw [test_withinBound hτ, decide_eq_false (not_upFrom_le hm)]
  have hexit : step program (⟨i, v⟩, τ) = .running (⟨j, v⟩, τ) :=
    step_gotoIf_jump h.layout.test hdone h.layout.exit
  refine ⟨k + 1, v, τ, hsteps.trans (.single hexit), fun p hp => ?_⟩
  rw [hsteps.observed_add, hseen p hp, observed_running hexit,
    reading_of_ne (by simp only; omega)]
  simp [observed]

/-- A loop whose bound is the greatest number takes turns for ever. -/
theorem endless (h : Counting program i x bound first final code j)
    (hσ : Holding x bound n Int32.maxValue σ)
    (hbody : Passes program (⟨i, last⟩, σ) (i + 1) (i + 1 + code.length)) (t : Nat) :
    ∃ k state, t ≤ k ∧ Steps (step program) k (⟨i, last⟩, σ) state ∧
      ∀ p, p = i + 1 ∨ p = i + 1 + code.length →
        observed (step program) (reading p x) k (⟨i, last⟩, σ) = counted n t := by
  obtain ⟨k, v, τ, hk, hsteps, -, hseen⟩ := h.turns hσ hbody t fun s _ => Int32.le_maxValue _
  exact ⟨k, _, hk, hsteps, hseen⟩

end Counting

end Walk

end SnippetLang.Typed
