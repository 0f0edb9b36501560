import SnippetLang.Proofs.Compilation.Statements
import SnippetLang.Snippet.Evaluation

/-!
# Compiling keeps the meaning

Evaluating a snippet without issues on a sound store is the same whether its flat program is walked
through or its compiled method is run: either neither ends, or both end in the same way.
-/

namespace SnippetLang

namespace Code

open Machine (step)
open Typed

section

variable {f : Frame} {program : List Stmt} {S : Stage} {start σ : Store} {m : Machine}

/-! ### The beginning and the ends -/

/-- A program is compiled to the method of a stage, and once the machine of the method has gone
    through the opening, it stands beside the beginning of the walk. -/
structure Opened (f : Frame) (program : List Stmt) (S : Stage) (start : Store) (m : Machine) :
    Prop where
  method : compile (markResults program) = .ok S.method
  compiled : Compiled f program S
  through : ∃ k, Through (step S.method) (·.index < (opening S.method.vars).length) k
    (S.method.start start) m
  related : Related f program S start (Walk.Place.start, start) m

theorem exists_opened_of_typed (h : ExecutableIn program program)
    (hfits : (slotsOf program).length ≤ 2147483648) (hσ : σ.Typed) :
    ∃ f S m, Opened f program S σ m := by
  obtain ⟨f, S, m, hopened⟩ := Style.keeping.exists_opened h hfits hσ
  exact ⟨f, S, m, hopened.method, .of_keeping hopened.compiled, hopened.through,
    .of_keeping hopened.related⟩

theorem exists_opened (h : ExecutableIn program program)
    (hfits : (slotsOf program).length ≤ 2147483648) (hσ : σ.Sound) :
    ∃ f S m, Opened f program S σ m := exists_opened_of_typed h hfits hσ.soundIf

namespace Opened

theorem forward (h : Opened f program S σ m) {o : Outcome}
    (ho : EndsWith (Walk.step program) (Walk.Place.start, σ) o) :
    ∃ c, EndsWith (step S.method) (S.method.start σ) c ∧ Matches (slotsOf program) σ o c := by
  obtain ⟨k, hthrough⟩ := h.through
  obtain ⟨c, hc, hmatch⟩ := (simulation h.compiled σ).forward h.related ho
  exact ⟨c, hthrough.steps.endsWith_iff.2 hc, hmatch⟩

theorem backward (h : Opened f program S σ m) {c : Machine.Ending}
    (hc : EndsWith (step S.method) (S.method.start σ) c) :
    ∃ o, EndsWith (Walk.step program) (Walk.Place.start, σ) o ∧
      Matches (slotsOf program) σ o c := by
  obtain ⟨k, hthrough⟩ := h.through
  exact (simulation h.compiled σ).backward h.related (hthrough.steps.endsWith_iff.1 hc)

end Opened

/-! ### What is left behind -/

/-- Variables that are brought back read as they did, if the others do already. -/
theorem read_setAll (b b' : Bindings) (vars : List Variable) (y : Variable)
    (h : (∀ x ∈ vars, x.same y = false) → b.read y = b'.read y) :
    (b.setAll (vars.zip (vars.map b'.read))).read y = b'.read y := by
  induction vars generalizing b with
  | nil => exact h nofun
  | cons x rest ih =>
    apply ih (b.set x (b'.read x))
    intro hrest
    rw [Bindings.read_set]
    by_cases hx : x.same y = true
    · rw [if_pos hx]
      exact read_congr hx b'
    · rw [if_neg hx]
      exact h (List.forall_mem_cons.2 ⟨Bool.eq_false_iff.2 hx, hrest⟩)

end

end Code

/-- Two ends cannot be told apart: the runs ended with the same value or in the same error and with
    the same console, and after a value every variable reads the same. -/
inductive Outcome.Indistinguishable : Outcome → Outcome → Prop where
  | ok {v : Value} {σ τ : Store} :
      σ.console = τ.console → (∀ x, σ.bindings.read x = τ.bindings.read x) →
      Indistinguishable (.ok v σ) (.ok v τ)
  | error {error : RunError} {σ τ : Store} :
      σ.console = τ.console → Indistinguishable (.error error σ) (.error error τ)

theorem Code.Matches.indistinguishable {method : Method} {σ : Store} {o : Outcome}
    {c : Machine.Ending} (h : Matches method.vars σ o c) :
    o.Indistinguishable (method.outcome σ c) := by
  cases h with
  | @ok v τ m harguments hconsole _ houtside =>
    refine .ok hconsole.symm fun x => ?_
    rw [harguments]
    exact (read_setAll σ.bindings τ.bindings method.vars x (houtside x)).symm
  | error hconsole => exact .error hconsole.symm

namespace Snippet

variable {s : Snippet} {σ : Store}

/-- The variables that the compiled method of a snippet has slots for. -/
def slots (s : Snippet) : List Variable := Code.slotsOf s.lowered

/-- Evaluations that cannot be told apart: nothing was rejected, and neither can the outcomes be. -/
inductive Evaluation.Indistinguishable : Evaluation → Evaluation → Prop where
  | ended {o o' : Outcome} : o.Indistinguishable o' → Indistinguishable (.ended o) (.ended o')

theorem evaluate_treeWalk_of_issues (h : s.issues = []) (n : Nat) :
    s.evaluate .treeWalk σ n =
      (runFor (Typed.Walk.step s.lowered) n (Typed.Walk.Place.start, σ)).map .ended := by
  unfold evaluate
  rw [if_pos (by rw [h]; rfl)]
  exact congrArg (Option.map Evaluation.ended) (Execution.runFor_walking ..)

theorem Clean.evaluate_treeWalk (h : s.Clean) (n : Nat) :
    s.evaluate .treeWalk σ n =
      (runFor (Typed.Walk.step s.lowered) n (Typed.Walk.Place.start, σ)).map .ended :=
  evaluate_treeWalk_of_issues h.issues_eq_nil n

theorem Clean.evaluate_compiled (h : s.Clean) {method : Code.Method}
    (hmethod : s.method = .ok method) (n : Nat) :
    s.evaluate .compiled σ n = ((runFor (Code.Machine.step method) n (method.start σ)).map
      (method.outcome σ)).map .ended := by
  unfold evaluate execution
  rw [if_pos (by rw [h.issues_eq_nil]; rfl), hmethod]
  exact congrArg (Option.map Evaluation.ended) (Execution.runFor_running ..)

/-- The two ways of evaluating a clean snippet cannot be told apart: either neither evaluation ends,
    or both end in the same way. -/
theorem evaluate_indistinguishable (h : s.Clean) (hfits : s.slots.length ≤ 2147483648)
    (hσ : σ.Sound) :
    ((∃ n a, s.evaluate .treeWalk σ n = some a) ↔ ∃ n b, s.evaluate .compiled σ n = some b) ∧
    ∀ n m a b, s.evaluate .treeWalk σ n = some a → s.evaluate .compiled σ m = some b →
      a.Indistinguishable b := by
  obtain ⟨f, S, m, hopened⟩ := Code.exists_opened h.executable hfits hσ
  have hvars : S.method.vars = s.slots := hopened.compiled.vars_eq
  refine ⟨⟨?_, ?_⟩, ?_⟩
  · rintro ⟨n, a, ha⟩
    rw [h.evaluate_treeWalk] at ha
    obtain ⟨o, ho, rfl⟩ := Option.map_eq_some_iff.1 ha
    obtain ⟨c, ⟨k, hc⟩, -⟩ := hopened.forward ⟨n, ho⟩
    exact ⟨k, _, by rw [h.evaluate_compiled hopened.method, hc]; rfl⟩
  · rintro ⟨n, b, hb⟩
    rw [h.evaluate_compiled hopened.method, Option.map_map] at hb
    obtain ⟨c, hc, rfl⟩ := Option.map_eq_some_iff.1 hb
    obtain ⟨o, ⟨k, ho⟩, -⟩ := hopened.backward ⟨n, hc⟩
    exact ⟨k, _, by rw [h.evaluate_treeWalk, ho]; rfl⟩
  · intro n k a b ha hb
    rw [h.evaluate_treeWalk] at ha
    rw [h.evaluate_compiled hopened.method, Option.map_map] at hb
    obtain ⟨o, ho, rfl⟩ := Option.map_eq_some_iff.1 ha
    obtain ⟨c, hc, rfl⟩ := Option.map_eq_some_iff.1 hb
    obtain ⟨c', hc', hmatch⟩ := hopened.forward ⟨n, ho⟩
    obtain rfl := hc'.unique ⟨k, hc⟩
    have hmatch' : Code.Matches S.method.vars σ o c' := hvars ▸ hmatch
    exact .ended hmatch'.indistinguishable

/-- The compiled method of a loop behind a declaration of `a` writes what the walk writes. -/
theorem evaluate_indistinguishable_loop :
    let s := (first "var a = 2").next "for i = 1 to a print(string(a - i))"
    let σ : Store := ⟨Bindings.empty.set ⟨"a", false, .int⟩ (.int 2), Console.start [] fun _ => 0⟩
    ∃ n τ, s.evaluate .compiled σ n = some (.ended (.ok (.int 3) τ)) ∧
      τ.console.output = "1\n0\n" := by
  intro s σ
  have h : s.Clean := .next (.first (by decide +kernel)) (by decide +kernel)
  have hempty : Bindings.empty.Typed := nofun
  have hσ : σ.Sound := ⟨hempty.set rfl, nofun⟩
  have hagree := evaluate_indistinguishable h (by decide +kernel) hσ
  have hwalk : (runFor (Typed.Walk.step s.lowered) 40 (Typed.Walk.Place.start, σ)).map
      (fun o => (o.value?, o.store.console.output)) = some (some (.int 3), "1\n0\n") := by
    decide +kernel
  obtain ⟨o, ho, hshown⟩ := Option.map_eq_some_iff.1 hwalk
  obtain ⟨hvalue, houtput⟩ := Prod.mk.inj hshown
  have hend : s.evaluate .treeWalk σ 40 = some (.ended o) := by
    rw [h.evaluate_treeWalk, ho]
    rfl
  obtain ⟨n, b, hb⟩ := hagree.1.1 ⟨40, _, hend⟩
  cases hagree.2 40 n _ b hend hb with
  | ended hsame =>
    cases hsame with
    | error _ => cases hvalue
    | @ok v σ' τ hconsole _ =>
      cases hvalue
      exact ⟨n, τ, hb, hconsole ▸ houtput⟩

end Snippet

end SnippetLang
