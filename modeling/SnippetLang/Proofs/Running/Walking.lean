import SnippetLang.Proofs.Lowering.Structured
import SnippetLang.Proofs.Running.Steps
import SnippetLang.Typed.Walk

/-!
# Walking, statement by statement

What one step of a walk does, for each form of statement that it can stand on; and where the
statements of a piece of code stand in the program that the code is part of.
-/

namespace SnippetLang

/-! ### Pieces of a program -/

/-- A piece of a list stands at an index. -/
def Placed {α : Type} (program : List α) (i : Nat) (piece : List α) : Prop :=
  ∃ before after, program = before ++ piece ++ after ∧ before.length = i

namespace Placed

variable {α : Type} {program piece rest : List α} {i : Nat} {a : α}

theorem whole (program : List α) : Placed program 0 program := ⟨[], [], by simp, rfl⟩

theorem head (h : Placed program i (a :: rest)) : program[i]? = some a := by
  obtain ⟨before, after, rfl, rfl⟩ := h
  simp

theorem tail (h : Placed program i (a :: rest)) : Placed program (i + 1) rest := by
  obtain ⟨before, after, rfl, rfl⟩ := h
  exact ⟨before ++ [a], after, by simp, by simp⟩

theorem left (h : Placed program i (piece ++ rest)) : Placed program i piece := by
  obtain ⟨before, after, rfl, rfl⟩ := h
  exact ⟨before, rest ++ after, by simp, rfl⟩

theorem getElem? (h : Placed program i piece) {k : Nat} (hk : k < piece.length) :
    program[i + k]? = piece[k]? := by
  obtain ⟨before, after, rfl, rfl⟩ := h
  rw [List.append_assoc, List.getElem?_append_right (Nat.le_add_right _ _),
    Nat.add_sub_cancel_left, List.getElem?_append_left hk]

theorem right (h : Placed program i (piece ++ rest)) :
    Placed program (i + piece.length) rest := by
  obtain ⟨before, after, rfl, rfl⟩ := h
  exact ⟨before ++ piece, after, by simp, by simp⟩

end Placed

namespace Typed

/-! ### Labels -/

/-- The label that a statement marks. -/
def Stmt.label? : Stmt → Option JumpLabel
  | .label l => some l
  | _ => none

/-- The labels that are marked in a program, in order. -/
def marks (program : List Stmt) : List JumpLabel := program.filterMap Stmt.label?

theorem marks_append (p q : List Stmt) : marks (p ++ q) = marks p ++ marks q :=
  List.filterMap_append

theorem mem_marks_cons {l : JumpLabel} {s : Stmt} {rest : List Stmt} :
    l ∈ marks (s :: rest) ↔ s.label? = some l ∨ l ∈ marks rest := by
  simp [marks]

theorem labelTarget?_cons (l : JumpLabel) (s : Stmt) (rest : List Stmt) :
    labelTarget? l (s :: rest) =
      match labelTarget? l rest with
      | some i => some (i + 1)
      | none => if s.label? = some l then some 1 else none := by
  conv => lhs; unfold labelTarget?
  cases labelTarget? l rest with
  | some i => rfl
  | none => cases s <;> simp [Stmt.label?]

/-- A label has no target exactly if it is not marked. -/
theorem labelTarget?_eq_none_iff {l : JumpLabel} {program : List Stmt} :
    labelTarget? l program = none ↔ l ∉ marks program := by
  induction program with
  | nil => simp [labelTarget?, marks]
  | cons s rest ih =>
    rw [labelTarget?_cons, mem_marks_cons]
    cases hrest : labelTarget? l rest with
    | some i => simp_all
    | none =>
      have hnot := ih.1 hrest
      by_cases hs : s.label? = some l <;> simp [hs, hnot]

/-- When no label is marked twice, jumps to a label go on behind its mark. -/
theorem labelTarget?_of_nodup {l : JumpLabel} {program : List Stmt} (hn : (marks program).Nodup)
    {i : Nat} (h : program[i]? = some (.label l)) : labelTarget? l program = some (i + 1) := by
  induction program generalizing i with
  | nil => simp at h
  | cons s rest ih =>
    rw [← List.singleton_append, marks_append, List.nodup_append] at hn
    rw [labelTarget?_cons]
    cases i with
    | zero =>
      obtain rfl : s = .label l := by simpa using h
      have hnot : l ∉ marks rest := fun hl => hn.2.2 l (by simp [marks, Stmt.label?]) l hl rfl
      rw [labelTarget?_eq_none_iff.2 hnot]
      simp [Stmt.label?]
    | succ i => rw [ih hn.2.1 (by simpa using h)]

/-! ### Computations in a row -/

section

variable {α β : Type} {x : Eval α} {f : α → Eval β} {σ τ : Store}

theorem eval_bind_of_ok {a : α} (h : x σ = .ok a τ) : (x >>= f) σ = f a τ := by
  change EStateM.bind x f σ = f a τ
  unfold EStateM.bind
  rw [h]

theorem eval_bind_of_error {error : RunError} (h : x σ = .error error τ) :
    (x >>= f) σ = .error error τ := by
  change EStateM.bind x f σ = .error error τ
  unfold EStateM.bind
  rw [h]

end

/-! ### One step -/

namespace Walk

variable {program : List Stmt} {i : Nat} {last : Value} {σ τ : Store}

theorem step_end (h : program.length ≤ i) :
    step program (⟨i, last⟩, σ) = .finished (.ok last σ) := by
  unfold step
  rw [List.getElem?_eq_none h]

/-- A walk goes on from the statements of its program only. -/
theorem getElem?_of_step {state next : Place × Store} (h : step program state = .running next) :
    ∃ s, program[state.1.index]? = some s := by
  unfold step at h
  cases hs : program[state.1.index]? with
  | some s => exact ⟨s, rfl⟩
  | none =>
    rw [hs] at h
    cases h

/-- A walk ends with a value behind its program only. -/
theorem length_le_of_step_ok {state : Place × Store} {v : Value}
    (h : step program state = .finished (.ok v σ)) : program.length ≤ state.1.index := by
  unfold step at h
  cases hs : program[state.1.index]? with
  | none => exact List.getElem?_eq_none_iff.1 hs
  | some s =>
    rw [hs] at h
    dsimp only at h
    split at h <;> cases h

theorem step_of_execute_ok {s : Stmt} {p : Place} (h : program[i]? = some s)
    (hx : execute program ⟨i, last⟩ s σ = .ok p τ) :
    step program (⟨i, last⟩, σ) = .running (p, τ) := by
  unfold step
  rw [h]
  dsimp only
  rw [hx]

theorem step_of_execute_error {s : Stmt} {error : RunError} (h : program[i]? = some s)
    (hx : execute program ⟨i, last⟩ s σ = .error error τ) :
    step program (⟨i, last⟩, σ) = .finished (.error error τ) := by
  unfold step
  rw [h]
  dsimp only
  rw [hx]

/-- A declaration goes on to the next statement with the value that was assigned. -/
theorem execute_declare (x : Variable) (init : Expr) (p : Place) :
    execute program p (.declare x init) σ =
      (assignFrom x init >>= fun v => pure ⟨p.index + 1, v⟩) σ := by
  change (init.eval >>= fun v => writeVariable x v >>= fun _ => pure (Place.mk (p.index + 1) v)) σ =
    ((init.eval >>= fun v => writeVariable x v >>= fun _ => pure v) >>= _) σ
  rw [bind_assoc]
  rfl

/-- A conditional jump is its test, and what the answer decides on. -/
theorem execute_gotoIf {l : JumpLabel} {c : Expr} {jumpIf : Bool} {p : Place} :
    execute program p (.gotoIf l c jumpIf) σ =
      (test c >>= fun b =>
        if b = jumpIf then jump program l p.last else pure ⟨p.index + 1, p.last⟩) σ := by
  unfold test
  rw [bind_assoc]
  rfl

theorem step_declare_ok {x : Variable} {init : Expr} {v : Value}
    (h : program[i]? = some (.declare x init)) (hv : assignFrom x init σ = .ok v τ) :
    step program (⟨i, last⟩, σ) = .running (⟨i + 1, v⟩, τ) :=
  step_of_execute_ok h ((execute_declare x init _).trans (eval_bind_of_ok hv))

theorem step_declare_error {x : Variable} {init : Expr} {error : RunError}
    (h : program[i]? = some (.declare x init)) (hv : assignFrom x init σ = .error error τ) :
    step program (⟨i, last⟩, σ) = .finished (.error error τ) :=
  step_of_execute_error h ((execute_declare x init _).trans (eval_bind_of_error hv))

theorem step_expr_ok {e : Expr} {v : Value} (h : program[i]? = some (.expr e))
    (hv : e.eval σ = .ok v τ) : step program (⟨i, last⟩, σ) = .running (⟨i + 1, v⟩, τ) :=
  step_of_execute_ok h (eval_bind_of_ok hv)

theorem step_expr_error {e : Expr} {error : RunError} (h : program[i]? = some (.expr e))
    (hv : e.eval σ = .error error τ) :
    step program (⟨i, last⟩, σ) = .finished (.error error τ) :=
  step_of_execute_error h (eval_bind_of_error hv)

theorem step_label {l : JumpLabel} (h : program[i]? = some (.label l)) :
    step program (⟨i, last⟩, σ) = .running (⟨i + 1, last⟩, σ) :=
  step_of_execute_ok h rfl

/-- A jump goes on behind the mark of its label. -/
theorem jump_of_target {l : JumpLabel} {j : Nat} (hl : labelTarget? l program = some j) :
    jump program l last σ = .ok ⟨j, last⟩ σ := by
  unfold jump
  rw [hl]
  rfl

theorem step_goto {l : JumpLabel} {j : Nat} (h : program[i]? = some (.goto l))
    (hl : labelTarget? l program = some j) :
    step program (⟨i, last⟩, σ) = .running (⟨j, last⟩, σ) :=
  step_of_execute_ok h (jump_of_target hl)

theorem step_gotoIf_error {l : JumpLabel} {c : Expr} {jumpIf : Bool} {error : RunError}
    (h : program[i]? = some (.gotoIf l c jumpIf)) (hc : test c σ = .error error τ) :
    step program (⟨i, last⟩, σ) = .finished (.error error τ) :=
  step_of_execute_error h (execute_gotoIf.trans (eval_bind_of_error hc))

/-- A conditional jump whose condition is met. -/
theorem step_gotoIf_jump {l : JumpLabel} {c : Expr} {jumpIf : Bool} {j : Nat}
    (h : program[i]? = some (.gotoIf l c jumpIf)) (hc : test c σ = .ok jumpIf τ)
    (hl : labelTarget? l program = some j) :
    step program (⟨i, last⟩, σ) = .running (⟨j, last⟩, τ) := by
  refine step_of_execute_ok h (execute_gotoIf.trans ((eval_bind_of_ok hc).trans ?_))
  rw [if_pos rfl]
  exact jump_of_target hl

/-- A conditional jump whose condition is not met. -/
theorem step_gotoIf_pass {l : JumpLabel} {c : Expr} {jumpIf b : Bool}
    (h : program[i]? = some (.gotoIf l c jumpIf)) (hc : test c σ = .ok b τ) (hb : b ≠ jumpIf) :
    step program (⟨i, last⟩, σ) = .running (⟨i + 1, last⟩, τ) := by
  refine step_of_execute_ok h (execute_gotoIf.trans ((eval_bind_of_ok hc).trans ?_))
  rw [if_neg hb]
  rfl

/-! ### What a walk shows -/

/-- What a variable reads as where a walk stands at an index. -/
def reading (i : Nat) (x : Variable) (state : Place × Store) : Option Value :=
  if state.1.index = i then some (state.2.bindings.read x) else none

@[simp] theorem reading_self (i : Nat) (x : Variable) (last : Value) (σ : Store) :
    reading i x (⟨i, last⟩, σ) = some (σ.bindings.read x) := if_pos rfl

theorem reading_of_ne {x : Variable} {state : Place × Store} (h : state.1.index ≠ i) :
    reading i x state = none := if_neg h

end Walk

end Typed

end SnippetLang
