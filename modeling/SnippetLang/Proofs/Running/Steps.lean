import SnippetLang.Iteration

/-!
# Chains of steps

Runs taken apart into chains of steps.  A chain leads from a state to a later one; what a state ends
with, every later state ends with.  `Through` says moreover what holds on the way.  `Simulation`
compares two kinds of runs: every step of the first is answered by a chain of the second.  Such a
chain may be empty, but a rank keeps the first run from taking such steps for ever, so that the first
run ends also when only the second is known to.
-/

namespace SnippetLang

variable {σ τ β γ : Type} {step : σ → Progress σ β} {step' : τ → Progress τ γ}

/-- A state leads to another one in that many steps. -/
inductive Steps (step : σ → Progress σ β) : Nat → σ → σ → Prop where
  | refl {s : σ} : Steps step 0 s s
  | head {n : Nat} {s t u : σ} :
      step s = .running t → Steps step n t u → Steps step (n + 1) s u

def Reaches (step : σ → Progress σ β) (s t : σ) : Prop := ∃ n, Steps step n s t

namespace Steps

theorem single {s t : σ} (h : step s = .running t) : Steps step 1 s t := .head h .refl

theorem trans {n m : Nat} {s t u : σ} (h : Steps step n s t) (h' : Steps step m t u) :
    Steps step (n + m) s u := by
  induction h with
  | refl =>
    rw [Nat.zero_add]
    exact h'
  | head hs _ ih =>
    rw [Nat.add_right_comm]
    exact .head hs (ih h')

/-- The steps of a chain are used up first. -/
theorem runFor_add {k : Nat} {s t : σ} (h : Steps step k s t) (n : Nat) :
    runFor step (k + n) s = runFor step n t := by
  induction h with
  | refl => rw [Nat.zero_add]
  | head hs _ ih =>
    rw [Nat.add_right_comm]
    simp only [runFor, hs, ih]

/-- A run that ends goes through the whole chain. -/
theorem split {k n : Nat} {s t : σ} {b : β} (h : Steps step k s t)
    (hn : runFor step n s = some b) : ∃ m, n = k + m ∧ runFor step m t = some b := by
  induction h generalizing n with
  | refl => exact ⟨n, (Nat.zero_add n).symm, hn⟩
  | @head k s t u hs _ ih =>
    cases n with
    | zero => simp [runFor] at hn
    | succ n =>
      simp only [runFor, hs] at hn
      obtain ⟨m, rfl, hm⟩ := ih hn
      exact ⟨m, by omega, hm⟩

theorem endsWith_iff {k : Nat} {s t : σ} {b : β} (h : Steps step k s t) :
    EndsWith step s b ↔ EndsWith step t b := by
  constructor
  · rintro ⟨n, hn⟩
    obtain ⟨m, -, hm⟩ := h.split hn
    exact ⟨m, hm⟩
  · rintro ⟨n, hn⟩
    exact ⟨k + n, by rw [h.runFor_add, hn]⟩

/-- What every step keeps holds at the end of a chain if it holds at its beginning. -/
theorem keeps {p : σ → Prop} (hp : ∀ s t, p s → step s = .running t → p t) {n : Nat} {s t : σ}
    (h : Steps step n s t) (hs : p s) : p t := by
  induction h with
  | refl => exact hs
  | head hstep _ ih => exact ih (hp _ _ hs hstep)

end Steps

theorem endsWith_of_finished {s : σ} {b : β} (h : step s = .finished b) : EndsWith step s b :=
  ⟨1, by simp only [runFor, h]⟩

/-- A run ends in a state that it reaches. -/
theorem EndsWith.reaches {s : σ} {b : β} (h : EndsWith step s b) :
    ∃ t, Reaches step s t ∧ step t = .finished b := by
  obtain ⟨n, hn⟩ := h
  induction n generalizing s with
  | zero => simp [runFor] at hn
  | succ n ih =>
    cases hs : step s with
    | running t =>
      simp only [runFor, hs] at hn
      obtain ⟨u, ⟨k, hk⟩, hu⟩ := ih hn
      exact ⟨u, ⟨k + 1, .head hs hk⟩, hu⟩
    | finished c =>
      simp only [runFor, hs] at hn
      obtain rfl := Option.some.inj hn
      exact ⟨s, ⟨0, .refl⟩, hs⟩

/-- A run never ends where every state with a property leads to another one with it. -/
theorem runFor_eq_none {p : σ → Prop} (hp : ∀ s, p s → ∃ t, step s = .running t ∧ p t) {s : σ}
    (hs : p s) (n : Nat) : runFor step n s = none := by
  induction n generalizing s with
  | zero => rfl
  | succ n ih =>
    obtain ⟨t, hstep, ht⟩ := hp s hs
    simp only [runFor, hstep, ih ht]

/-! ### Chains on which something holds -/

/-- A state leads to another one in that many steps, and all states before the last one have a
    property. -/
inductive Through (step : σ → Progress σ β) (safe : σ → Prop) : Nat → σ → σ → Prop where
  | refl {s : σ} : Through step safe 0 s s
  | head {n : Nat} {s t u : σ} :
      safe s → step s = .running t → Through step safe n t u → Through step safe (n + 1) s u

namespace Through

variable {safe : σ → Prop} {n m : Nat} {s t u : σ}

theorem single (hs : safe s) (h : step s = .running t) : Through step safe 1 s t :=
  .head hs h .refl

theorem trans (h : Through step safe n s t) (h' : Through step safe m t u) :
    Through step safe (n + m) s u := by
  induction h with
  | refl =>
    rw [Nat.zero_add]
    exact h'
  | head hs hstep _ ih =>
    rw [Nat.add_right_comm]
    exact .head hs hstep (ih h')

theorem steps (h : Through step safe n s t) : Steps step n s t := by
  induction h with
  | refl => exact .refl
  | head _ hstep _ ih => exact .head hstep ih

theorem mono {safe' : σ → Prop} (h : Through step safe n s t) (himp : ∀ u, safe u → safe' u) :
    Through step safe' n s t := by
  induction h with
  | refl => exact .refl
  | head hs hstep _ ih => exact .head (himp _ hs) hstep ih

/-- What the steps of a chain keep holds on it and at its end. -/
theorem keeps {p : σ → Prop} (hp : ∀ s t, safe s → p s → step s = .running t → p t)
    (h : Through step safe n s t) (hs : p s) :
    Through step (fun u => safe u ∧ p u) n s t ∧ p t := by
  induction h with
  | refl => exact ⟨.refl, hs⟩
  | head hsafe hstep _ ih =>
    obtain ⟨hchain, ht⟩ := ih (hp _ _ hsafe hs hstep)
    exact ⟨.head ⟨hsafe, hs⟩ hstep hchain, ht⟩

/-- Where a run stands after some steps: still on the chain, or behind its end. -/
theorem meets (h : Through step safe n s t) (hm : Steps step m s u) :
    (m < n ∧ safe u) ∨ ∃ k, m = n + k ∧ Steps step k t u := by
  induction h generalizing m with
  | refl => exact .inr ⟨m, (Nat.zero_add m).symm, hm⟩
  | @head n s t v hs hstep _ ih =>
    cases hm with
    | refl => exact .inl ⟨Nat.succ_pos n, hs⟩
    | @head m _ t' _ hstep' hrest =>
      rw [hstep] at hstep'
      cases hstep'
      rcases ih hrest with ⟨hlt, hsafe⟩ | ⟨k, rfl, hk⟩
      · exact .inl ⟨Nat.succ_lt_succ hlt, hsafe⟩
      · exact .inr ⟨k, by omega, hk⟩

end Through

/-- What every step keeps holds on a whole chain. -/
theorem Steps.through {p : σ → Prop} (hp : ∀ s t, p s → step s = .running t → p t) {n : Nat}
    {s t : σ} (h : Steps step n s t) (hs : p s) : Through step p n s t := by
  induction h with
  | refl => exact .refl
  | head hstep _ ih => exact .head hs hstep (ih (hp _ _ hs hstep))

/-- A chain that leads out of the states with a property leaves them somewhere. -/
theorem Steps.leaves {n : Nat} {s u : σ} (h : Steps step n s u) (safe : σ → Prop)
    (hu : ¬ safe u) : ∃ k t, Through step safe k s t ∧ ¬ safe t := by
  induction h with
  | refl => exact ⟨0, _, .refl, hu⟩
  | @head n s t u hs _ ih =>
    by_cases hsafe : safe s
    · obtain ⟨k, t', hthrough, ht'⟩ := ih hu
      exact ⟨k + 1, t', .head hsafe hs hthrough, ht'⟩
    · exact ⟨0, s, .refl, hsafe⟩

/-- A state in which a run ends leads nowhere. -/
theorem Steps.eq_of_finished {n : Nat} {s t : σ} {b : β} (h : step s = .finished b)
    (hs : Steps step n s t) : n = 0 ∧ t = s := by
  cases hs with
  | refl => exact ⟨rfl, rfl⟩
  | head hstep _ =>
    rw [h] at hstep
    cases hstep

/-- A run ends after a chain, on which and behind which something holds. -/
def EndsThrough (step : σ → Progress σ β) (safe : σ → Prop) (n : Nat) (s : σ) (b : β) : Prop :=
  ∃ t, Through step safe n s t ∧ safe t ∧ step t = .finished b

namespace EndsThrough

variable {safe : σ → Prop} {n m : Nat} {s t u : σ} {b : β}

theorem single (hs : safe s) (h : step s = .finished b) : EndsThrough step safe 0 s b :=
  ⟨s, .refl, hs, h⟩

theorem after (h : Through step safe n s t) (ht : EndsThrough step safe m t b) :
    EndsThrough step safe (n + m) s b := by
  obtain ⟨u, hu, hsafe, hfinal⟩ := ht
  exact ⟨u, h.trans hu, hsafe, hfinal⟩

theorem endsWith (h : EndsThrough step safe n s b) : EndsWith step s b := by
  obtain ⟨t, ht, -, hfinal⟩ := h
  exact ht.steps.endsWith_iff.2 (endsWith_of_finished hfinal)

theorem mono {safe' : σ → Prop} (h : EndsThrough step safe n s b) (himp : ∀ u, safe u → safe' u) :
    EndsThrough step safe' n s b := by
  obtain ⟨t, ht, hsafe, hfinal⟩ := h
  exact ⟨t, ht.mono himp, himp t hsafe, hfinal⟩

/-- Every state on the way to the end is one of the chain. -/
theorem meets (h : EndsThrough step safe n s b) (hm : Steps step m s u) : m ≤ n ∧ safe u := by
  obtain ⟨t, ht, hsafe, hfinal⟩ := h
  rcases ht.meets hm with ⟨hlt, hu⟩ | ⟨k, rfl, hk⟩
  · exact ⟨Nat.le_of_lt hlt, hu⟩
  · obtain ⟨rfl, rfl⟩ := hk.eq_of_finished hfinal
    exact ⟨Nat.le_refl _, hsafe⟩

end EndsThrough

/-! ### Simulations -/

/-- Every step of one kind of run is answered by a chain of steps of another, and every end by a
    run to a matching end, with something holding on the way.  A step that is answered by no step at
    all lowers the rank. -/
structure Simulation (step : σ → Progress σ β) (step' : τ → Progress τ γ) (related : σ → τ → Prop)
    (matching : β → γ → Prop) (safe : τ → Prop) (rank : σ → Nat) : Prop where
  running {s s' : σ} {t : τ} : related s t → step s = .running s' →
    ∃ k t', Through step' safe k t t' ∧ related s' t' ∧ (k = 0 → rank s' < rank s)
  finished {s : σ} {t : τ} {b : β} : related s t → step s = .finished b →
    ∃ k c, EndsThrough step' safe k t c ∧ matching b c

namespace Simulation

variable {related : σ → τ → Prop} {matching : β → γ → Prop} {safe : τ → Prop} {rank : σ → Nat}

theorem forward (h : Simulation step step' related matching safe rank) {s : σ} {t : τ} {b : β}
    (hst : related s t) (hb : EndsWith step s b) : ∃ c, EndsWith step' t c ∧ matching b c := by
  obtain ⟨n, hn⟩ := hb
  induction n generalizing s t with
  | zero => simp [runFor] at hn
  | succ n ih =>
    cases hs : step s with
    | running s' =>
      simp only [runFor, hs] at hn
      obtain ⟨k, t', hchain, hst', -⟩ := h.running hst hs
      obtain ⟨c, hc, hbc⟩ := ih hst' hn
      exact ⟨c, hchain.steps.endsWith_iff.2 hc, hbc⟩
    | finished b' =>
      simp only [runFor, hs] at hn
      obtain rfl := Option.some.inj hn
      obtain ⟨k, c, hc, hbc⟩ := h.finished hst hs
      exact ⟨c, hc.endsWith, hbc⟩

theorem backward (h : Simulation step step' related matching safe rank) {s : σ} {t : τ} {c : γ}
    (hst : related s t) (hc : EndsWith step' t c) : ∃ b, EndsWith step s b ∧ matching b c := by
  obtain ⟨n, hn⟩ := hc
  -- lexicographic: the second run gets shorter, or the rank of the first gets smaller
  induction n using Nat.strongRecOn generalizing s t with
  | _ n ih =>
    induction hr : rank s using Nat.strongRecOn generalizing s with
    | _ r ihr =>
      cases hs : step s with
      | finished b =>
        obtain ⟨k, c', hc', hmatch⟩ := h.finished hst hs
        obtain rfl := hc'.endsWith.unique ⟨n, hn⟩
        exact ⟨b, endsWith_of_finished hs, hmatch⟩
      | running s' =>
        obtain ⟨k, t', hchain, hst', hrank⟩ := h.running hst hs
        obtain ⟨m, rfl, hm⟩ := hchain.steps.split hn
        have hlater : ∃ b, EndsWith step s' b ∧ matching b c := by
          cases k with
          | zero =>
            cases hchain
            exact ihr (rank s') (hr ▸ hrank rfl) hst' rfl
          | succ k => exact ih m (by omega) hst' hm
        obtain ⟨b, hb, hmatch⟩ := hlater
        exact ⟨b, (Steps.single hs).endsWith_iff.2 hb, hmatch⟩

/-- What holds on the chains holds in all states that the second run reaches. -/
theorem safe_of_reaches (h : Simulation step step' related matching safe rank) {s : σ} {t u : τ}
    (hst : related s t) (hu : Reaches step' t u) : safe u := by
  obtain ⟨n, hn⟩ := hu
  induction n using Nat.strongRecOn generalizing s t with
  | _ n ih =>
    induction hr : rank s using Nat.strongRecOn generalizing s with
    | _ r ihr =>
      cases hs : step s with
      | finished b =>
        obtain ⟨k, c, hc, -⟩ := h.finished hst hs
        exact (hc.meets hn).2
      | running s' =>
        obtain ⟨k, t', hchain, hst', hrank⟩ := h.running hst hs
        rcases hchain.meets hn with ⟨-, hsafe⟩ | ⟨m, rfl, hm⟩
        · exact hsafe
        · cases k with
          | zero =>
            cases hchain
            exact ihr (rank s') (hr ▸ hrank rfl) hst' rfl
          | succ k => exact ih m (by omega) hst' hm

end Simulation

end SnippetLang
