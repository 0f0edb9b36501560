import SnippetLang.Proofs.Safety.Evaluation
import SnippetLang.Proofs.Safety.Programs

/-!
# Safe walks

A walk through an executable program keeps its store sound, and ends with a value or in an error
that programs can cause.  On the way every expression that is evaluated, whole or inside another
one, has a value of its type.
-/

namespace SnippetLang.Typed

/-! ### Marked labels have targets -/

theorem labelTarget?_le {l : JumpLabel} {program : List Stmt} {j : Nat}
    (h : labelTarget? l program = some j) : j ≤ program.length := by
  induction program generalizing j with
  | nil => cases h
  | cons s rest ih =>
    rw [labelTarget?_cons] at h
    cases hrest : labelTarget? l rest with
    | some k =>
      rw [hrest] at h
      cases h
      exact Nat.succ_le_succ (ih hrest)
    | none =>
      simp only [hrest] at h
      split at h
      · cases h
        exact Nat.succ_le_succ (Nat.zero_le _)
      · cases h

theorem exists_labelTarget? {l : JumpLabel} {program : List Stmt} (h : .label l ∈ program) :
    ∃ j, labelTarget? l program = some j ∧ j ≤ program.length := by
  have hmarked : l ∈ marks program := List.mem_filterMap.2 ⟨.label l, h, rfl⟩
  cases hj : labelTarget? l program with
  | none => exact absurd hmarked (labelTarget?_eq_none_iff.1 hj)
  | some j => exact ⟨j, rfl, labelTarget?_le hj⟩

namespace Walk

variable {legible : Prop} {program : List Stmt} {p : Place} {σ : Store}

/-! ### One step -/

theorem jump_safe {l : JumpLabel} (hl : .label l ∈ program) (hσ : σ.SoundIf legible) (last : Value) :
    EndsSafely legible (·.index ≤ program.length) (jump program l last σ) := by
  obtain ⟨j, hj, hle⟩ := exists_labelTarget? hl
  simp only [jump, hj]
  exact .ok hle hσ

theorem test_safe {c : Expr} (hty : c.ty = .bool) (hc : c.WellTyped) (hσ : σ.SoundIf legible) :
    EndsSafely legible (fun _ => True) (test c σ) := by
  apply (eval_safe c hc hσ).bind
  intro v τ hv hτ
  exact needBool_safe hτ (hv.trans hty)

/-- Executing a statement goes on inside the program or at its end. -/
theorem execute_safe {s : Stmt} (hs : s.Executable program) (hσ : σ.SoundIf legible)
    (hp : p.index < program.length) :
    EndsSafely legible (·.index ≤ program.length) (execute program p s σ) := by
  cases hs with
  | declare _ hty hinit =>
    apply (eval_safe _ hinit hσ).bind
    intro v τ hv hτ
    exact .ok hp ⟨hτ.bindings.set (hv.trans hty), hτ.console⟩
  | expr he =>
    apply (eval_safe _ he hσ).bind
    intro v τ _ hτ
    exact .ok hp hτ
  | goto hl => exact jump_safe hl hσ p.last
  | @gotoIf l c jumpIf hl hty hc =>
    rw [execute_gotoIf]
    apply (test_safe hty hc hσ).bind
    intro b τ _ hτ
    by_cases hb : b = jumpIf
    · simp only [if_pos hb]
      exact jump_safe hl hτ p.last
    · simp only [if_neg hb]
      exact .ok hp hτ
  | label => exact .ok hp hσ

/-- A place in a program or at its end, and a sound store. -/
structure Sound (legible : Prop) (program : List Stmt) (state : Place × Store) : Prop where
  place : state.1.index ≤ program.length
  store : state.2.SoundIf legible

theorem Sound.start (program : List Stmt) (hσ : σ.SoundIf legible) :
    Sound legible program (Place.start, σ) := ⟨Nat.zero_le _, hσ⟩

theorem execute_of_getElem? (hprogram : ExecutableIn program program) {s : Stmt}
    (hs : program[p.index]? = some s) (hσ : σ.SoundIf legible) :
    EndsSafely legible (·.index ≤ program.length) (execute program p s σ) :=
  execute_safe (hprogram s (List.mem_of_getElem? hs)) hσ (List.getElem?_eq_some_iff.1 hs).1

theorem step_sound (hprogram : ExecutableIn program program) {state next : Place × Store}
    (h : Sound legible program state) (hstep : step program state = .running next) :
    Sound legible program next := by
  unfold step at hstep
  split at hstep
  · cases hstep
  · next s hs =>
    have hsafe := execute_of_getElem? hprogram hs h.store
    split at hstep
    · next p τ heq =>
      cases hstep
      exact ⟨(hsafe.of_ok heq).1, (hsafe.of_ok heq).2⟩
    · cases hstep

theorem step_finished_safe (hprogram : ExecutableIn program program) {state : Place × Store}
    {o : Outcome} (h : Sound legible program state) (hstep : step program state = .finished o) :
    EndsSafely legible (fun _ => True) o := by
  unfold step at hstep
  split at hstep
  · cases hstep
    exact .ok trivial h.store
  · next s hs =>
    have hsafe := execute_of_getElem? hprogram hs h.store
    split at hstep
    · cases hstep
    · next e τ heq =>
      cases hstep
      exact .error (hsafe.of_error heq).1 (hsafe.of_error heq).2

/-! ### Whole walks -/

theorem sound_of_reaches (hprogram : ExecutableIn program program) {state state' : Place × Store}
    (h : Sound legible program state) (hreaches : Reaches (step program) state state') :
    Sound legible program state' := by
  obtain ⟨n, hn⟩ := hreaches
  exact hn.keeps (fun _ _ => step_sound hprogram) h

theorem endsSafely_of_endsWith (hprogram : ExecutableIn program program) (hσ : σ.SoundIf legible)
    {o : Outcome} (h : EndsWith (step program) (Place.start, σ) o) :
    EndsSafely legible (fun _ => True) o := by
  obtain ⟨state, hreaches, hstep⟩ := h.reaches
  have hsound := sound_of_reaches hprogram (.start program hσ) hreaches
  exact step_finished_safe hprogram hsound hstep

end Walk

/-- The expression that a statement of a flat program evaluates. -/
def Stmt.expr? : Stmt → Option Expr
  | .declare _ init => some init
  | .expr e => some e
  | .gotoIf _ condition _ => some condition
  | _ => none

namespace Stmt.Executable

theorem expr?_wellTyped {program : List Stmt} {s : Stmt} {e : Expr} (h : s.Executable program)
    (he : s.expr? = some e) : e.WellTyped := by
  cases h with
  | declare _ _ hinit =>
    cases he
    exact hinit
  | expr h =>
    cases he
    exact h
  | goto _ => cases he
  | gotoIf _ _ hc =>
    cases he
    exact hc
  | label => cases he

end Stmt.Executable

/-- A walk on a store comes to the evaluation of an expression on a store: of the expression of the
    statement that it stands at, or of a part of that. -/
def Walk.ComesTo (program : List Stmt) (σ : Store) (e : Expr) (τ : Store) : Prop :=
  ∃ (p : Place) (υ : Store) (s : Stmt) (whole : Expr),
    Reaches (step program) (Place.start, σ) (p, υ) ∧ program[p.index]? = some s ∧
      s.expr? = some whole ∧ whole.Visits υ e τ

/-- Every evaluation that a walk comes to ends with a value of the type of its expression, or in a
    permitted error. -/
theorem Walk.ComesTo.safe {program : List Stmt} (hprogram : ExecutableIn program program)
    {σ τ : Store} (hσ : σ.Sound) {e : Expr} (h : ComesTo program σ e τ) :
    EndsSafely True (·.ty = e.ty) (e.eval τ) := by
  obtain ⟨p, υ, s, whole, hreaches, hs, hwhole, hvisits⟩ := h
  have hstart : Walk.Sound True program (Place.start, σ) := .start program hσ.soundIf
  have hsound := sound_of_reaches hprogram hstart hreaches
  have hwell := (hprogram s (List.mem_of_getElem? hs)).expr?_wellTyped hwhole
  obtain ⟨hwell', hτ⟩ := hvisits.safe hwell hsound.store
  exact eval_safe e hwell' hτ

end SnippetLang.Typed
