import SnippetLang.Proofs.Running.Steps

/-!
# What is seen of a run

A look at a state tells something about it, or nothing.  What is observed of a run is what the looks
at its states tell, in the order in which the run goes through them.  The observations of a run are
put together from those of the chains that it is made of.
-/

namespace SnippetLang

/-- What is observed of the states that a run goes through, at most that many of them. -/
def observed {σ β α : Type} (step : σ → Progress σ β) (look : σ → Option α) : Nat → σ → List α
  | 0, _ => []
  | n + 1, s =>
    (look s).toList ++
      match step s with
      | .running t => observed step look n t
      | .finished _ => []

variable {σ β α : Type} {step : σ → Progress σ β} {look : σ → Option α}

theorem observed_running {s t : σ} (h : step s = .running t) (n : Nat) :
    observed step look (n + 1) s = (look s).toList ++ observed step look n t := by
  simp only [observed, h]

theorem observed_finished {s : σ} {b : β} (h : step s = .finished b) :
    observed step look 1 s = (look s).toList := by
  simp only [observed, h, List.append_nil]

theorem Steps.observed_add {k : Nat} {s t : σ} (h : Steps step k s t) (n : Nat) :
    observed step look (k + n) s = observed step look k s ++ observed step look n t := by
  induction h with
  | refl => rw [Nat.zero_add]; rfl
  | head hs _ ih =>
    rw [Nat.add_right_comm, observed_running hs, observed_running hs, ih, List.append_assoc]

/-- Nothing is observed on a chain of states that tell nothing. -/
theorem Through.observed_eq_nil {safe : σ → Prop} {k : Nat} {s t : σ} (h : Through step safe k s t)
    (hsafe : ∀ u, safe u → look u = none) : observed step look k s = [] := by
  induction h with
  | refl => rfl
  | head hs hstep _ ih => rw [observed_running hstep, hsafe _ hs, ih]; rfl

/-- A step of which something is observed, and a chain of which nothing is. -/
theorem Through.observed_head {safe : σ → Prop} {k : Nat} {s t u : σ} (hs : step s = .running t)
    (h : Through step safe k t u) (hsafe : ∀ v, safe v → look v = none) :
    observed step look (k + 1) s = (look s).toList := by
  rw [observed_running hs, h.observed_eq_nil hsafe, List.append_nil]

theorem Steps.observed_end {k : Nat} {s t : σ} {b : β} (h : Steps step k s t)
    (ht : step t = .finished b) :
    observed step look (k + 1) s = observed step look k s ++ (look t).toList := by
  rw [h.observed_add, observed_finished ht]

/-- A run that ends is a chain to its last state, in which it ends. -/
theorem exists_steps_of_runFor {n : Nat} {s : σ} {b : β} (h : runFor step n s = some b) :
    ∃ k t, Steps step k s t ∧ step t = .finished b ∧
      ∀ {α : Type} (look : σ → Option α),
        observed step look n s = observed step look k s ++ (look t).toList := by
  induction n generalizing s with
  | zero => cases h
  | succ n ih =>
    cases hs : step s with
    | running t =>
      simp only [runFor, hs] at h
      obtain ⟨k, u, hk, hu, hlook⟩ := ih h
      refine ⟨k + 1, u, .head hs hk, hu, fun look => ?_⟩
      rw [observed_running hs, observed_running hs, hlook, List.append_assoc]
    | finished c =>
      simp only [runFor, hs] at h
      obtain rfl := Option.some.inj h
      refine ⟨0, s, .refl, hs, fun look => ?_⟩
      simp only [observed, hs, List.append_nil, List.nil_append]

end SnippetLang
