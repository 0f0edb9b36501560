import SnippetLang.Proofs.Compilation.Retracing
import SnippetLang.Proofs.Counting.Turns

/-!
# Counted loops count

A counting loop that is lowered by itself, walked through and compiled.  Its body is executed once
for each number from its lower bound to its upper bound, in their order, unless the upper bound is
the greatest number: stepping the counter up wraps around there, so the counter never passes such a
bound and the loop never ends.
-/

namespace SnippetLang

namespace Typed

/-! ### A loop by itself -/

/-- The flat form of the body of a loop that is lowered by itself.  It stands behind the two
    declarations of the loop, its label and its test. -/
def bodyCode (body : Stmt) : List Stmt := (body.lowerFrom ⟨2, 1⟩).1

/-- The body of a lowered loop is entered, and left again behind its last statement, with these
    values of the counter, in so many steps of a walk. -/
structure Walk.Turns (program : List Stmt) (σ : Store) (x : Variable) (code : List Stmt) (n : Nat)
    (values : List Value) : Prop where
  entered : observed (step program) (reading 4 x) n (Place.start, σ) = values
  left : observed (step program) (reading (4 + code.length) x) n (Place.start, σ) = values

section

variable {x : Variable} {lower upper : Expr} {body : Stmt} {σ σ₁ σ₂ : Store} {lo hi : Int32}

theorem counting_lower (lower upper : Expr) (hs : body.Structured) (htyped : body.WellTyped)
    (hhidden : ∀ k, 0 < k → k ≤ ((Stmt.count x lower upper body).lowerFrom ⟨0, 0⟩).2.bounds →
      x.same (hiddenBound k) = false)
    (hassigned : ∀ y ∈ body.assigned, y.same x = false ∧ y.same (hiddenBound 1) = false) :
    Walk.Counting (Stmt.count x lower upper body).lower 3 x (hiddenBound 1) ⟨1⟩ ⟨2⟩ (bodyCode body)
      (Stmt.count x lower upper body).lower.length := by
  have hnumbered : 1 ≤ (body.lowerFrom ⟨2, 1⟩).2.bounds :=
    (numbered_lowerFrom body hs ⟨2, 1⟩).bounds
  have hdistinct : (marks (Stmt.count x lower upper body).lower).Nodup := nodup_marks_lower hs
  have hlayout :=
    countingAt hdistinct (Placed.whole (Stmt.count x lower upper body).lower).tail.tail
  constructor
  · exact hdistinct
  · have hlength : (Stmt.count x lower upper body).lower.length = 0 + 1 + 1 + _ :=
      Nat.add_comm _ 2
    rw [hlength]
    exact hlayout
  · exact executable_lowerFrom body htyped hs ⟨2, 1⟩ (List.Subset.refl _)
  · intro y hy
    rcases mem_assigned_of_lowerFrom body hs ⟨2, 1⟩ y hy with hy | ⟨k, hlow, hhigh, rfl⟩
    · exact hassigned y hy
    · refine ⟨?_, ?_⟩
      · rw [Variable.same_comm]
        exact hhidden k (Nat.zero_lt_of_lt hlow) hhigh
      · have hlow : 1 < k := hlow
        exact Bool.eq_false_iff.2 fun hsame => absurd (same_hiddenBound_iff.1 hsame) (by omega)
  · exact hhidden 1 Nat.zero_lt_one hnumbered

theorem through_to_test (body : Stmt) (hlower : assignFrom x lower σ = .ok (.int lo) σ₁)
    (hupper : upper.eval σ₁ = .ok (.int hi) σ₂) (hkept : σ₂.bindings.read x = .int lo)
    (hapart : x.same (hiddenBound 1) = false) :
    ∃ τ, Through (Walk.step (Stmt.count x lower upper body).lower) (·.1.index < 3) 3
        (Walk.Place.start, σ) (⟨3, .int hi⟩, τ) ∧
      Holding x (hiddenBound 1) lo hi τ := by
  have hplaced := Placed.whole (Stmt.count x lower upper body).lower
  let τ : Store := { σ₂ with bindings := σ₂.bindings.set (hiddenBound 1) (.int hi) }
  have hfirst : Walk.step (Stmt.count x lower upper body).lower (Walk.Place.start, σ) =
      .running (⟨1, .int lo⟩, σ₁) := Walk.step_declare_ok hplaced.head hlower
  have hsecond : Walk.step (Stmt.count x lower upper body).lower (⟨1, .int lo⟩, σ₁) =
      .running (⟨2, .int hi⟩, τ) := Walk.step_declare_ok hplaced.tail.head (assignFrom_ok hupper)
  have hthird : Walk.step (Stmt.count x lower upper body).lower (⟨2, .int hi⟩, τ) =
      .running (⟨3, .int hi⟩, τ) := Walk.step_label hplaced.tail.tail.head
  refine ⟨τ, .head (Nat.zero_lt_succ 2) hfirst
    (.head (Nat.one_lt_succ_succ 1) hsecond (.single (Nat.lt_succ_self 2) hthird)), ?_, ?_⟩
  · rw [Bindings.read_set, if_neg (by rw [Variable.same_comm]; simp [hapart])]
    exact hkept
  · rw [Bindings.read_set, if_pos (Variable.same_self _)]

/-- A loop whose upper bound is not the greatest number ends, and its body is executed once for each
    number up to the upper bound. -/
theorem walk_turns {program code : List Stmt} {τ : Store}
    (hloop : Walk.Counting program 3 x (hiddenBound 1) ⟨1⟩ ⟨2⟩ code program.length)
    (htest : Through (Walk.step program) (·.1.index < 3) 3 (Walk.Place.start, σ)
      (⟨3, .int hi⟩, τ))
    (hτ : Holding x (hiddenBound 1) lo hi τ)
    (hbody : Walk.Passes program (Walk.Place.start, σ) 4 (4 + code.length))
    (hhi : hi ≠ Int32.maxValue) :
    ∃ n v υ, walk program σ n = some (.ok v υ) ∧
      Walk.Turns program σ x code n (counted lo (numbersTo lo hi)) := by
  obtain ⟨k, v, υ, hsteps, hseen⟩ := hloop.leaves hτ (hbody.later htest.steps) hhi
  have hall := htest.steps.trans hsteps
  have hend : Walk.step program (⟨program.length, v⟩, υ) = .finished (.ok v υ) :=
    Walk.step_end (Nat.le_refl _)
  have hlength : 4 + code.length < program.length := by
    have := hloop.layout.behind
    omega
  have hcounted : ∀ p, p = 4 ∨ p = 4 + code.length →
      observed (Walk.step program) (Walk.reading p x) (3 + k + 1) (Walk.Place.start, σ) =
        counted lo (numbersTo lo hi) := by
    intro p hp
    rw [hall.observed_end hend, htest.steps.observed_add, hseen p hp,
      htest.observed_eq_nil fun state hstate => Walk.reading_of_ne (by omega),
      Walk.reading_of_ne (by simp only; omega)]
    simp
  refine ⟨3 + k + 1, v, υ, ?_, hcounted 4 (.inl rfl), hcounted _ (.inr rfl)⟩
  rw [walk, hall.runFor_add]
  simp only [runFor, hend]

/-- A loop whose upper bound is the greatest number never ends, and the values of its counter go on
    as far as one likes. -/
theorem walk_endless {program code : List Stmt} {τ : Store}
    (hloop : Walk.Counting program 3 x (hiddenBound 1) ⟨1⟩ ⟨2⟩ code program.length)
    (htest : Through (Walk.step program) (·.1.index < 3) 3 (Walk.Place.start, σ)
      (⟨3, .int Int32.maxValue⟩, τ))
    (hτ : Holding x (hiddenBound 1) lo Int32.maxValue τ)
    (hbody : Walk.Passes program (Walk.Place.start, σ) 4 (4 + code.length)) :
    (∀ n, walk program σ n = none) ∧
      ∀ t, ∃ n state, Steps (Walk.step program) n (Walk.Place.start, σ) state ∧
        Walk.Turns program σ x code n (counted lo t) := by
  have hturns := hloop.endless hτ (hbody.later htest.steps)
  constructor
  · intro n
    cases hn : walk program σ n with
    | none => rfl
    | some o =>
      obtain ⟨k, state, hk, hsteps, -⟩ := hturns n
      obtain ⟨m, hsplit, hm⟩ := (htest.steps.trans hsteps).split hn
      omega
  · intro t
    obtain ⟨k, state, -, hsteps, hseen⟩ := hturns t
    have hcounted : ∀ p, p = 4 ∨ p = 4 + code.length →
        observed (Walk.step program) (Walk.reading p x) (3 + k) (Walk.Place.start, σ) =
          counted lo t := by
      intro p hp
      rw [htest.steps.observed_add, hseen p hp,
        htest.observed_eq_nil fun state hstate => Walk.reading_of_ne (by omega)]
      rfl
    exact ⟨3 + k, state, htest.steps.trans hsteps, hcounted 4 (.inl rfl), hcounted _ (.inr rfl)⟩

end

end Typed

namespace Code

open Machine (step)
open Typed

/-! ### A loop compiled -/

/-- A program is compiled to a method, with the slots of a frame. -/
structure Compiles (f : Frame) (program : List Stmt) (method : Method) : Prop where
  vars : f.vars = slotsOf program
  blocks : method = methodOf (slotsOf program) (Code.blocks f program)
  compiled : compile (markResults program) = .ok method

/-- The method of a program comes to the block of the statement at an index with these values of a
    variable, in so many steps. -/
def Turns (f : Frame) (program : List Stmt) (method : Method) (σ : Store) (x : Variable)
    (i n : Nat) (values : List Value) : Prop :=
  observed (step method) (Machine.reading (blockIndex f program i) (slotNumber f x)) n
    (method.start σ) = values.map .ofValue

theorem Opened.compiles {f : Frame} {program : List Stmt} {S : Stage} {σ : Store} {m : Machine}
    (h : Opened f program S σ m) : Compiles f program S.method :=
  ⟨h.compiled.vars, h.compiled.method, h.method⟩

theorem Opened.run_eq_none {f : Frame} {program : List Stmt} {S : Stage} {σ : Store} {m : Machine}
    (h : Opened f program S σ m) (hnever : ∀ n, walk program σ n = none) (n' : Nat) :
    S.method.run σ n' = none := by
  cases hn' : S.method.run σ n' with
  | none => rfl
  | some o =>
    obtain ⟨c, hc, -⟩ := Option.map_eq_some_iff.1 hn'
    obtain ⟨o', ⟨n, hn⟩, -⟩ := h.backward ⟨n', hc⟩
    exact absurd ((hnever n).symm.trans hn) (Option.some_ne_none o').symm

end Code

namespace Typed

open Code (Compiles slotsOf slotNumber)

theorem executable_lower {s : Stmt} (htyped : s.WellTyped) (hs : s.Structured) :
    ExecutableIn s.lower s.lower := executable_lowerFrom s htyped hs ⟨0, 0⟩ (List.Subset.refl _)

end Typed

end SnippetLang
