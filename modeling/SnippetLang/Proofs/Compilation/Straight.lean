import SnippetLang.Proofs.Machines.Effects
import SnippetLang.Proofs.Running.Observing

/-!
# Straight code

Only branches choose the instruction to go on with.  Through code without branches a machine goes
one instruction a step, and a chain that begins at a piece of such code stays in it until it is
through.
-/

namespace SnippetLang.Code

namespace Machine

/-- Only branches choose where to go on. -/
theorem index_of_step {method : Method} {m m' : Machine} {i : Instr}
    (hi : method.instructions[m.index]? = some i) (hstraight : i.target? = none)
    (h : step method m = .running m') : m'.index = m.index + 1 := by
  have hstepped := stepped method m
  rw [h] at hstepped
  cases hstepped with
  | runs hi' hexecuted =>
    obtain rfl := Option.some.inj (hi'.symm.trans hi)
    exact hexecuted.index.resolve_right (hstraight ▸ nofun)

/-- Behind the last instruction a machine does not go on. -/
theorem getElem?_of_step {method : Method} {m m' : Machine} (h : step method m = .running m') :
    ∃ i, method.instructions[m.index]? = some i := by
  have hstepped := stepped method m
  rw [h] at hstepped
  cases hstepped with
  | runs hi _ => exact ⟨_, hi⟩

/-! ### Chains through straight code -/

/-- A chain through code of which the last instruction alone may be a branch stays in the code until
    it is through. -/
theorem through_of_steps {method : Method} {n : Nat} {m m' : Machine}
    (hcode : ∀ k i, k + 1 < n → method.instructions[m.index + k]? = some i → i.target? = none)
    (h : Steps (step method) n m m') :
    Through (step method) (fun u => m.index ≤ u.index ∧ u.index < m.index + n) n m m' := by
  induction h with
  | refl => exact .refl
  | @head n m u m' hs hrest ih =>
    refine .head ⟨Nat.le_refl _, Nat.lt_add_of_pos_right (Nat.succ_pos n)⟩ hs ?_
    cases hrest with
    | refl => exact .refl
    | @head n _ v _ hs' hrest =>
      obtain ⟨i, hi⟩ := getElem?_of_step hs
      have hu : u.index = m.index + 1 := index_of_step hi (hcode 0 i (by omega) hi) hs
      refine (ih fun k i hk hi => ?_).mono fun w hw => by omega
      rw [hu, Nat.add_assoc, Nat.add_comm 1] at hi
      exact hcode (k + 1) i (by omega) hi

/-- Of such a chain what is seen at its first instruction is seen once. -/
theorem observed_of_steps {α : Type} {method : Method} {look : Machine → Option α} {n : Nat}
    {m m' : Machine}
    (hcode : ∀ k i, k + 1 < n → method.instructions[m.index + k]? = some i → i.target? = none)
    (h : Steps (step method) n m m') (hn : 0 < n)
    (hlook : ∀ u : Machine, u.index ≠ m.index → look u = none) :
    observed (step method) look n m = (look m).toList := by
  cases h with
  | refl => exact absurd hn (Nat.lt_irrefl 0)
  | @head n _ u _ hs hrest =>
    cases hrest with
    | refl => exact (observed_running hs 0).trans (List.append_nil _)
    | @head n _ v _ hs' hrest =>
      obtain ⟨i, hi⟩ := getElem?_of_step hs
      have hu : u.index = m.index + 1 := index_of_step hi (hcode 0 i (by omega) hi) hs
      refine Through.observed_head hs (through_of_steps (fun k i hk hi => ?_) (.head hs' hrest)) ?_
      · rw [hu, Nat.add_assoc, Nat.add_comm 1] at hi
        exact hcode (k + 1) i (by omega) hi
      · exact fun w hw => hlook w (by omega)

end Machine

end SnippetLang.Code
