/-!
# Running step by step

Both evaluators are given as one step from a state to the next one or to an end.  A program may run
for ever, so running takes a number of steps and answers nothing when they were not enough; an
answer does not depend on how many steps were left over.
-/

namespace SnippetLang

/-- What a step leads to: another state, or the end. -/
inductive Progress (σ β : Type) where
  | running (s : σ)
  | finished (b : β)

/-- Takes steps until the end, at most that many. -/
def runFor {σ β : Type} (step : σ → Progress σ β) : Nat → σ → Option β
  | 0, _ => none
  | n + 1, s =>
    match step s with
    | .running s => runFor step n s
    | .finished b => some b

/-- Whether a state reaches an end. -/
def EndsWith {σ β : Type} (step : σ → Progress σ β) (s : σ) (b : β) : Prop :=
  ∃ n, runFor step n s = some b

theorem runFor_succ {σ β : Type} {step : σ → Progress σ β} {n : Nat} {s : σ} {b : β}
    (h : runFor step n s = some b) : runFor step (n + 1) s = some b := by
  induction n generalizing s with
  | zero => simp [runFor] at h
  | succ n ih =>
    unfold runFor at h ⊢
    cases hs : step s <;> simp only [hs] at h ⊢
    · exact ih h
    · exact h

theorem runFor_mono {σ β : Type} {step : σ → Progress σ β} {n m : Nat} {s : σ} {b : β}
    (h : runFor step n s = some b) (hm : n ≤ m) : runFor step m s = some b := by
  induction hm with
  | refl => exact h
  | step _ ih => exact runFor_succ ih

/-- A state has at most one end. -/
theorem EndsWith.unique {σ β : Type} {step : σ → Progress σ β} {s : σ} {b c : β}
    (hb : EndsWith step s b) (hc : EndsWith step s c) : b = c := by
  obtain ⟨n, hn⟩ := hb
  obtain ⟨m, hm⟩ := hc
  have h₁ := runFor_mono hn (Nat.le_max_left n m)
  have h₂ := runFor_mono hm (Nat.le_max_right n m)
  exact Option.some.inj (h₁.symm.trans h₂)

end SnippetLang
