import SnippetLang.Proofs.Compilation.Arguments
import SnippetLang.Proofs.Compilation.Expressions
import SnippetLang.Proofs.Compilation.Styles

/-!
# Walks and machines side by side

A walk and a machine go side by side, in whatever style the program was compiled: while the walk
stands at a statement, the machine stands at the block of the statement with nothing on its stack, its
slots hold the variables as the walk has them, and the result slot holds the last value if values are
kept, and nothing if they are dropped.  Every step of the walk is answered by the instructions of one
block, and its end by the closing of the method.
-/

namespace SnippetLang.Code

open Machine (execute step)
open Typed

/-- The cell of the result: a box, or nothing for the value that is none. -/
def resultCell (v : Value) : Cell := if v.ty = .void then .null else .boxed v

/-- Variables outside the slots are outside every list of variables with slots. -/
theorem sameOutside_slots {vars xs : List Variable} (hxs : ∀ x ∈ xs, HasSlot vars x) {σ τ : Store}
    (h : SameOutside xs σ τ) : SameOutside vars σ τ := by
  intro y hy
  apply h y
  intro x hx
  obtain ⟨z, hz, hsame⟩ := hxs x hx
  rw [← Variable.same_congr hsame y]
  exact hy z hz

/-! ### Values -/

section

variable {S : Stage} {result : Cell} {i : Nat} {σ : Store} {v : Value}

/-- The value of a statement is moved from the stack into the result. -/
theorem through_resultCode (hσ : σ.Typed) {ty : Ty} (hv : v.ty = ty) (hty : ty.Named ∨ ty = .void)
    (hp : Placed S.method.instructions i (resultCode ty)) :
    Through (step S.method) (Carries S.method.vars) 2 (S.machine result i (pushed v []) σ)
      (S.machine (resultCell v) (i + 2) [] σ) := by
  subst hv
  have hload : Through (step S.method) (Carries S.method.vars) 1
      (S.machine result i (pushed v []) σ) (S.machine result (i + 1) [resultCell v] σ) := by
    refine .single (S.carries _ _ _ hσ) (step_of_execute hp.head ?_)
    rcases hty with hnamed | hvoid
    · rw [if_neg hnamed.ne_void, resultCell, if_neg hnamed.ne_void, pushed_of_named hnamed]
      exact execute_box rfl hnamed
    · rw [if_pos hvoid, resultCell, if_pos hvoid, pushed, if_pos hvoid]
      rfl
  have hstore : Through (step S.method) (Carries S.method.vars) 1
      (S.machine result (i + 1) [resultCell v] σ) (S.machine (resultCell v) (i + 2) [] σ) :=
    .single (S.carries _ _ _ hσ) (step_of_execute hp.tail.head rfl)
  exact hload.trans hstore

end

theorem converts_named {s t : Ty} (h : Typing.Converts s t) : t.Named := by
  cases h <;> decide

theorem named_or_void {e : Expr} (h : e.WellTyped) : e.ty.Named ∨ e.ty = .void := by
  cases h with
  | literal hv => exact .inl hv
  | read hx => exact .inl hx
  | assign hx hty _ => exact .inl (hty ▸ hx)
  | unary hrow _ _ => exact .inl (unary_named _ hrow).2
  | binary hrow _ _ _ _ => exact .inl (binary_named _ hrow).2.2
  | @call g _ hg _ _ =>
    have hall : ∀ g ∈ Function.all, g.ty.Named ∨ g.ty = .void := by decide
    exact hall g hg
  | convert hc _ => exact .inl (converts_named hc)

/-! ### Stages -/

namespace Style

/-- The cell of the result while a value is the last one. -/
def cell (style : Style) (last : Value) : Cell := resultCell (style.returned last)

/-- A stage is set for an executable program: it has the method that the program is compiled to. -/
structure Compiled (style : Style) (f : Frame) (program : List Stmt) (S : Stage) : Prop where
  executable : ExecutableIn program program
  vars : f.vars = slotsOf program
  method : S.method = methodOf (slotsOf program) (style.blocks f program)
  arguments : S.arguments.length = (slotsOf program).length
  fits : (slotsOf program).length ≤ 2147483648

/-- The index in the method at which the block of a statement begins. -/
def blockIndex (style : Style) (f : Frame) (program : List Stmt) (i : Nat) : Nat :=
  (opening (slotsOf program)).length + (rawCode (style.blocks f (program.take i))).length

/-- The index in the method that jumps to a label go to. -/
def jumpIndex (style : Style) (f : Frame) (program : List Stmt) (l : JumpLabel) : Nat :=
  (markedAt? l (style.blocks f program)).getD 0 + (opening (slotsOf program)).length

namespace Compiled

variable {style : Style} {f : Frame} {program : List Stmt} {S : Stage} {i : Nat} {s : Stmt}

theorem vars_eq (h : style.Compiled f program S) : S.method.vars = slotsOf program := by
  rw [h.method]
  rfl

theorem distinct (h : style.Compiled f program S) : Distinct S.method.vars := by
  rw [h.vars_eq]
  exact distinct_slotted _

theorem frame_vars (h : style.Compiled f program S) : f.vars = S.method.vars := by
  rw [h.vars, h.vars_eq]

theorem instructions (h : style.Compiled f program S) :
    S.method.instructions = opening (slotsOf program) ++
      resolvedCode (style.jumpIndex f program) (style.blocks f program) ++
        closing (slotsOf program) := by
  rw [h.method]
  rfl

theorem blockIndex_length : style.blockIndex f program program.length =
    (opening (slotsOf program) ++
      resolvedCode (style.jumpIndex f program) (style.blocks f program)).length := by
  rw [List.length_append, length_resolvedCode, blockIndex, List.take_length]

theorem placed_block (h : style.Compiled f program S) (hs : program[i]? = some s) :
    Placed S.method.instructions (style.blockIndex f program i)
      (resolvedCode (style.jumpIndex f program) (style.block f s)) := by
  obtain ⟨before, after, heq, hlength⟩ :=
    placed_flatMap (style.block f) hs (style.jumpIndex f program)
  refine ⟨opening (slotsOf program) ++ before, after ++ closing (slotsOf program), ?_, ?_⟩
  · rw [h.instructions, blocks, heq]
    simp only [List.append_assoc]
  · rw [List.length_append, hlength]
    rfl

theorem placed_closing (h : style.Compiled f program S) :
    Placed S.method.instructions (style.blockIndex f program program.length)
      (closing (slotsOf program)) :=
  ⟨_, [], by rw [h.instructions, List.append_nil], blockIndex_length.symm⟩

theorem blockIndex_succ (hs : program[i]? = some s) :
    style.blockIndex f program (i + 1) = style.blockIndex f program i +
      (resolvedCode (style.jumpIndex f program) (style.block f s)).length := by
  rw [blockIndex, blocks, length_rawCode_take_succ _ hs, length_resolvedCode, blockIndex,
    Nat.add_assoc]
  rfl

theorem jumpIndex_eq {l : JumpLabel} {j : Nat} (hj : labelTarget? l program = some j) :
    style.jumpIndex f program l = style.blockIndex f program j := by
  rw [jumpIndex, markedAt?_blocks, hj, Option.map_some, Option.getD_some, blockIndex, Nat.add_comm]

theorem hasSlot (h : style.Compiled f program S) (hs : s ∈ program) :
    ∀ x ∈ stmtVariables s, HasSlot f.vars x := by
  rw [h.vars]
  exact covers_slotsOf program s hs

theorem computes (h : style.Compiled f program S) {e : Expr} (he : e.WellTyped)
    (hvars : ∀ x ∈ exprVariables e, HasSlot f.vars x) (result : Cell) {k : Nat} {σ : Store}
    (hp : Placed S.method.instructions k (codeOf f e)) (hσ : σ.Typed) :
    Computes (S.setting result) (pushed · []) (codeOf f e).length k [] σ (e.eval σ) :=
  computes_eval e he (S.keepsAll h.distinct h.frame_vars result _) (exprCode_eq he hvars).1 hp hσ

/-- Evaluating an expression of the program leaves variables without slots alone. -/
theorem sameOutside (h : style.Compiled f program S) {e : Expr} {start σ : Store}
    (hvars : ∀ x ∈ exprVariables e, HasSlot f.vars x)
    (houtside : SameOutside (slotsOf program) start σ) {v : Value} {τ : Store}
    (heval : e.eval σ = .ok v τ) : SameOutside (slotsOf program) start τ := by
  rw [h.vars] at hvars
  exact houtside.trans (sameOutside_slots hvars (eval_sameOutside heval))

end Compiled

/-- A machine stands where a walk stands, and the walk has kept to the types and to the variables of
    the program. -/
structure Related (style : Style) (f : Frame) (program : List Stmt) (S : Stage) (start : Store)
    (state : Walk.Place × Store) (m : Machine) : Prop where
  place : state.1.index ≤ program.length
  sound : state.2.Typed
  outside : SameOutside (slotsOf program) start state.2
  machine : m = S.machine (style.cell state.1.last) (style.blockIndex f program state.1.index) []
    state.2

/-- The end of a machine is that of a walk: the value that the style returns or the same error, the
    same console, and after a value the variables of the walk in the arguments. -/
inductive Matches (style : Style) (vars : List Variable) (start : Store) :
    Outcome → Machine.Ending → Prop where
  | ok {v : Value} {τ : Store} {m : Machine} :
      m.arguments = vars.map τ.bindings.read → m.console = τ.console → τ.Typed →
      SameOutside vars start τ → Matches style vars start (.ok v τ) (.ok (style.returned v) m)
  | error {error : RunError} {τ : Store} {m : Machine} :
      m.console = τ.console → Matches style vars start (.error error τ) (.error error m)

/-- What a step of a walk leads to is answered by a machine: by a chain to where the walk goes on,
    as long as the block, which is further on in the program if the chain is empty, or by a run to a
    matching end. -/
inductive Answered (style : Style) (f : Frame) (program : List Stmt) (S : Stage) (start : Store)
    (i : Nat) (m : Machine) : Progress (Walk.Place × Store) Outcome → Prop where
  | running {next : Walk.Place × Store} {k : Nat} {m' : Machine} :
      Through (step S.method) (Carries S.method.vars) k m m' →
      style.blockIndex f program (i + 1) = style.blockIndex f program i + k →
      style.Related f program S start next m' →
      (k = 0 → program.length - next.1.index < program.length - i) →
      Answered style f program S start i m (.running next)
  | finished {o : Outcome} {k : Nat} {c : Machine.Ending} :
      EndsThrough (step S.method) (Carries S.method.vars) k m c →
      style.Matches (slotsOf program) start o c → Answered style f program S start i m (.finished o)

/-! ### Statements with values -/

/-- The code of a length at an index makes the value that a computation answers the last one, or the
    run ends in the same error inside the code. -/
inductive Settles (style : Style) (S : Stage) (n i : Nat) (last : Value) (σ : Store) :
    EStateM.Result RunError Store Value → Prop where
  | ok {v : Value} {τ : Store} :
      Through (step S.method) (Carries S.method.vars) n (S.machine (style.cell last) i [] σ)
        (S.machine (style.cell v) (i + n) [] τ) →
      Settles style S n i last σ (.ok v τ)
  | error {error : RunError} {k : Nat} {m : Machine} {τ : Store} :
      EndsThrough (step S.method) (Carries S.method.vars) k (S.machine (style.cell last) i [] σ)
        (.error error m) → m.console = τ.console →
      Settles style S n i last σ (.error error τ)

section

variable {style : Style} {f : Frame} {program : List Stmt} {S : Stage} {start σ : Store}
  {m : Machine} {i : Nat} {last : Value} {e : Expr} {s : Stmt}

/-- Code for a computation settles its value together with the code that does so behind it. -/
theorem settles_of_computes {final : Value → List Cell} {n n' : Nat}
    {r : EStateM.Result RunError Store Value}
    (h : Computes (S.setting (style.cell last)) final n i [] σ r)
    (hafter : ∀ v τ, r = .ok v τ → Through (step S.method) (Carries S.method.vars) n'
      (S.machine (style.cell last) (i + n) (final v) τ)
      (S.machine (style.cell v) (i + n + n') [] τ)) :
    style.Settles S (n + n') i last σ r := by
  cases h with
  | ok hthrough =>
    have hall := (hthrough.mono Stage.carries_of_holds).trans (hafter _ _ rfl)
    rw [Nat.add_assoc] at hall
    exact .ok hall
  | error _ hends hconsole => exact .error (hends.mono Stage.carries_of_holds) hconsole

theorem through_dropCode (hσ : σ.Typed) {v : Value} {result : Cell}
    (hp : Placed S.method.instructions i (dropCode v.ty)) :
    Through (step S.method) (Carries S.method.vars) (dropCode v.ty).length
      (S.machine result i (pushed v []) σ) (S.machine result (i + (dropCode v.ty).length) [] σ) := by
  unfold dropCode pushed at *
  by_cases hvoid : v.ty = .void
  · simp only [if_pos hvoid] at hp ⊢
    exact .refl
  · simp only [if_neg hvoid] at hp ⊢
    exact .single (S.carries _ _ _ hσ) (step_of_execute hp.head rfl)

/-- The block of an expression settles its value. -/
theorem settles_expr (h : style.Compiled f program S) (he : e.WellTyped)
    (hvars : ∀ x ∈ exprVariables e, HasSlot f.vars x) (hs : program[i]? = some (.expr e))
    (hσ : σ.Typed) :
    style.Settles S (resolvedCode (style.jumpIndex f program) (style.block f (.expr e))).length
      (style.blockIndex f program i) last σ (e.eval σ) := by
  have hsafe := eval_safe e he hσ
  have hp := h.placed_block hs
  cases style with
  | keeping =>
    have hblock : keeping.block f (.expr e) = (codeOf f e ++ resultCode e.ty).map .instr := rfl
    rw [hblock, resolvedCode_map_instr] at hp ⊢
    rw [List.length_append]
    refine settles_of_computes (h.computes he hvars _ hp.left hσ) fun v τ hv => ?_
    obtain ⟨hty, hτ⟩ := hsafe.of_ok hv
    exact through_resultCode hτ hty (named_or_void he) hp.right
  | dropping =>
    have hblock : dropping.block f (.expr e) = (codeOf f e ++ dropCode e.ty).map .instr := rfl
    rw [hblock, resolvedCode_map_instr] at hp ⊢
    rw [List.length_append]
    refine settles_of_computes (h.computes he hvars _ hp.left hσ) fun v τ hv => ?_
    obtain ⟨hty, hτ⟩ := hsafe.of_ok hv
    rw [← hty] at hp ⊢
    exact through_dropCode hτ hp.right

/-- The block of a declaration settles the value that is assigned. -/
theorem settles_declare (h : style.Compiled f program S) {x : Variable} {init : Expr}
    (hx : x.ty.Named) (hty : init.ty = x.ty) (hinit : init.WellTyped)
    (hvars : ∀ y ∈ exprVariables init ++ [x], HasSlot f.vars y)
    (hs : program[i]? = some (.declare x init)) (hσ : σ.Typed) :
    style.Settles S
      (resolvedCode (style.jumpIndex f program) (style.block f (.declare x init))).length
      (style.blockIndex f program i) last σ ((Expr.assign x init).eval σ) := by
  have hassign : (Expr.assign x init).WellTyped := .assign hx hty hinit
  have hp := h.placed_block hs
  cases style with
  | keeping =>
    -- a declaration is an assignment whose value is the result
    have hblock : keeping.block f (.declare x init) =
        (codeOf f (.assign x init) ++ resultCode (Expr.assign x init).ty).map .instr := by
      rw [codeOf_assign hinit hvars, Expr.ty, hty]
      rfl
    rw [hblock, resolvedCode_map_instr] at hp ⊢
    rw [List.length_append]
    refine settles_of_computes (h.computes hassign hvars _ hp.left hσ) fun v τ hv => ?_
    obtain ⟨hvty, hτ⟩ := (eval_safe _ hassign hσ).of_ok hv
    exact through_resultCode hτ hvty (named_or_void hassign) hp.right
  | dropping =>
    have hblock : dropping.block f (.declare x init) =
        (codeOf f init ++ [Instr.storeLocal (slotNumber f x)]).map .instr := rfl
    rw [hblock, resolvedCode_map_instr] at hp ⊢
    obtain ⟨hvalue, hx'⟩ := List.forall_mem_append.1 hvars
    have hslot := slot_eq (hx' x (List.mem_singleton_self x))
    have hkeeps := S.keepsAll h.distinct h.frame_vars (cell dropping last) [x] x
      (List.mem_singleton_self x) _ hslot
    have hsafe := eval_safe init hinit hσ
    have hcomputes : Computes (S.setting (cell dropping last)) (fun _ => [])
        ((codeOf f init).length + 1) (dropping.blockIndex f program i) [] σ ((Expr.assign x init).eval σ) := by
      refine Computes.bind ((h.computes hinit hvalue _ hp.left hσ).named hsafe (hty ▸ hx))
        fun v τ hv => ?_
      obtain ⟨-, hτ⟩ := hsafe.of_ok hv
      exact (computes_storeLocal hτ hkeeps v hp.right.head).append (.ok .refl)
    rw [List.length_append, List.length_singleton]
    show dropping.Settles S ((codeOf f init).length + 1 + 0) _ last σ _
    exact settles_of_computes hcomputes fun _ _ _ => .refl

/-- A statement whose value becomes the last one is answered by its block. -/
theorem answered_value (h : style.Compiled f program S)
    (hs : program[i]? = some s) (he : e.WellTyped)
    (hvars : ∀ x ∈ exprVariables e, HasSlot f.vars x)
    (hsettles : style.Settles S
      (resolvedCode (style.jumpIndex f program) (style.block f s)).length
      (style.blockIndex f program i) last σ (e.eval σ))
    (hok : ∀ v τ, e.eval σ = .ok v τ →
      Walk.step program (⟨i, last⟩, σ) = .running (⟨i + 1, v⟩, τ))
    (herror : ∀ error τ, e.eval σ = .error error τ →
      Walk.step program (⟨i, last⟩, σ) = .finished (.error error τ))
    (hrel : style.Related f program S start (⟨i, last⟩, σ) m) :
    style.Answered f program S start i m (Walk.step program (⟨i, last⟩, σ)) := by
  have hi := (List.getElem?_eq_some_iff.1 hs).1
  have hsafe := eval_safe e he hrel.sound
  obtain rfl := hrel.machine
  cases heval : e.eval σ with
  | ok v τ =>
    obtain ⟨-, hτ⟩ := hsafe.of_ok heval
    rw [hok v τ heval]
    cases heval ▸ hsettles with
    | ok hthrough =>
      have hnext : style.blockIndex f program (i + 1) = _ := Compiled.blockIndex_succ hs
      refine .running hthrough hnext
        ⟨hi, hτ, h.sameOutside hvars hrel.outside heval, ?_⟩ fun _ => by simp only; omega
      rw [hnext]
  | error error τ =>
    rw [herror error τ heval]
    cases heval ▸ hsettles with
    | error hends hconsole => exact .finished hends (.error hconsole)

/-! ### Labels and jumps -/

theorem answered_label {l : JumpLabel} (hs : program[i]? = some (.label l))
    (hrel : style.Related f program S start (⟨i, last⟩, σ) m) :
    style.Answered f program S start i m (Walk.step program (⟨i, last⟩, σ)) := by
  have hi := (List.getElem?_eq_some_iff.1 hs).1
  have hnext : style.blockIndex f program (i + 1) = style.blockIndex f program i + 0 := by
    rw [Compiled.blockIndex_succ hs]
    cases style <;> rfl
  rw [Walk.step_label hs]
  refine .running .refl hnext ⟨hi, hrel.sound, hrel.outside, ?_⟩ fun _ => by simp only; omega
  rw [hrel.machine, hnext]
  rfl

theorem answered_goto (h : style.Compiled f program S) {l : JumpLabel}
    (hs : program[i]? = some (.goto l)) (hl : .label l ∈ program)
    (hrel : style.Related f program S start (⟨i, last⟩, σ) m) :
    style.Answered f program S start i m (Walk.step program (⟨i, last⟩, σ)) := by
  obtain ⟨j, hj, hle⟩ := exists_labelTarget? hl
  have hblock : style.block f (.goto l) = [.jump (.branch 0) l] := by cases style <;> rfl
  have hp := h.placed_block hs
  have hnext : style.blockIndex f program (i + 1) = style.blockIndex f program i + 1 := by
    rw [Compiled.blockIndex_succ hs, hblock]
    rfl
  rw [hblock] at hp
  obtain rfl := hrel.machine
  rw [Walk.step_goto hs hj]
  have hbranch := step_of_execute
    (m := S.machine (style.cell last) (style.blockIndex f program i) [] σ) hp.head rfl
  refine .running (.single (S.carries _ _ _ hrel.sound) hbranch) hnext
    ⟨hle, hrel.sound, hrel.outside, ?_⟩ (fun h0 => absurd h0 (by decide))
  rw [Compiled.jumpIndex_eq hj]
  rfl

theorem execute_branchIf {vars : List Variable} {result : Cell} {τ : Store} (jumpIf b : Bool)
    (k t : Nat) :
    execute vars ((if jumpIf then Instr.branchTrue 0 else .branchFalse 0).retarget fun _ => t)
        (S.machine result k [.ofValue (.bool b)] τ) =
      .ok none (S.machine result (if b = jumpIf then t else k) [] τ) := by
  cases jumpIf <;> cases b <;> rfl


theorem answered_gotoIf (h : style.Compiled f program S) {l : JumpLabel} {c : Expr} {jumpIf : Bool}
    (hs : program[i]? = some (.gotoIf l c jumpIf)) (hl : .label l ∈ program) (hty : c.ty = .bool)
    (hc : c.WellTyped) (hvars : ∀ x ∈ exprVariables c, HasSlot f.vars x)
    (hrel : style.Related f program S start (⟨i, last⟩, σ) m) :
    style.Answered f program S start i m (Walk.step program (⟨i, last⟩, σ)) := by
  obtain ⟨j, hj, hle⟩ := exists_labelTarget? hl
  have hi := (List.getElem?_eq_some_iff.1 hs).1
  have hblock : style.block f (.gotoIf l c jumpIf) = (codeOf f c).map .instr ++
      [.jump (if jumpIf then .branchTrue 0 else .branchFalse 0) l] := by cases style <;> rfl
  have hp := h.placed_block hs
  have hnext : style.blockIndex f program (i + 1) =
      style.blockIndex f program i + ((codeOf f c).length + 1) := by
    rw [Compiled.blockIndex_succ hs, hblock, resolvedCode_append, resolvedCode_map_instr,
      List.length_append]
    rfl
  rw [hblock, resolvedCode_append, resolvedCode_map_instr] at hp
  have hcomputes := h.computes hc hvars (style.cell last) hp.left hrel.sound
  obtain rfl := hrel.machine
  have hsafe := eval_safe c hc hrel.sound
  cases heval : c.eval σ with
  | ok v τ =>
    obtain ⟨hvty, hτ⟩ := hsafe.of_ok heval
    obtain ⟨b, rfl⟩ := Value.bool_of_ty (hvty.trans hty)
    have htest : test c σ = .ok b τ := by
      simp only [test, bind, EStateM.bind, heval]
      rfl
    have houtside := h.sameOutside hvars hrel.outside heval
    cases heval ▸ hcomputes with
    | ok hthrough =>
      have hbranch := step_of_execute
        (m := S.machine (style.cell last)
          (style.blockIndex f program i + (codeOf f c).length) [.ofValue (.bool b)] τ)
        hp.right.head (execute_branchIf jumpIf b _ _)
      have hchain := (hthrough.mono Stage.carries_of_holds).trans
        (.single (S.carries _ _ _ hτ) hbranch)
      by_cases hb : b = jumpIf
      · subst hb
        rw [Walk.step_gotoIf_jump hs htest hj]
        refine .running hchain hnext ⟨hle, hτ, houtside, ?_⟩ (fun h0 => absurd h0 (by omega))
        rw [if_pos rfl, Compiled.jumpIndex_eq hj]
      · rw [Walk.step_gotoIf_pass hs htest hb]
        refine .running hchain hnext ⟨hi, hτ, houtside, ?_⟩ (fun h0 => absurd h0 (by omega))
        rw [if_neg hb, hnext]
        rfl
  | error error τ =>
    have htest : test c σ = .error error τ := by
      simp only [test, bind, EStateM.bind, heval]
    rw [Walk.step_gotoIf_error hs htest]
    cases heval ▸ hcomputes with
    | error _ hends hconsole =>
      exact .finished (hends.mono Stage.carries_of_holds) (.error hconsole)

end

end Style

/-! ### The end -/

mutual

theorem variables_named : (e : Expr) → e.WellTyped → ∀ x ∈ exprVariables e, x.ty.Named
  | .error, h => nomatch h
  | .literal _, _ => nofun
  | .read x, .read hx => by
    intro y hy
    obtain rfl := List.mem_singleton.1 hy
    exact hx
  | .assign x value, .assign hx _ hvalue => by
    refine List.forall_mem_append.2 ⟨variables_named value hvalue, ?_⟩
    intro y hy
    obtain rfl := List.mem_singleton.1 hy
    exact hx
  | .unary _ operand, .unary _ _ hoperand => variables_named operand hoperand
  | .binary left _ right, .binary _ _ _ hleft hright =>
    List.forall_mem_append.2 ⟨variables_named left hleft, variables_named right hright⟩
  | .call _ args, .call _ _ hargs => variablesAll_named args hargs
  | .convert _ e, .convert _ he => variables_named e he

theorem variablesAll_named : (es : List Expr) → (∀ e ∈ es, e.WellTyped) →
    ∀ x ∈ exprsVariables es, x.ty.Named
  | [], _ => nofun
  | e :: es, h => by
    obtain ⟨he, hes⟩ := List.forall_mem_cons.1 h
    exact List.forall_mem_append.2 ⟨variables_named e he, variablesAll_named es hes⟩

end

theorem slots_named {program : List Stmt} (h : ExecutableIn program program) :
    ∀ x ∈ slotsOf program, x.ty.Named := by
  intro x hx
  rw [← Style.dropping.slotted_program program] at hx
  obtain ⟨s, hs, hx⟩ := List.mem_flatMap.1 (mem_of_mem_slotted hx)
  cases h s hs with
  | declare hy _ hinit =>
    rcases List.mem_append.1 hx with hx | hx
    · exact variables_named _ hinit x hx
    · obtain rfl := List.mem_singleton.1 hx
      exact hy
  | expr he => exact variables_named _ he x hx
  | goto _ => cases hx
  | gotoIf _ _ hc => exact variables_named _ hc x hx
  | label => cases hx

section

variable {f : Frame} {program : List Stmt} {S : Stage} {start σ : Store} {m : Machine} {i : Nat}
  {last : Value}

/-- A return answers the value that the result cell stands for. -/
theorem execute_ret {vars : List Variable} {rest : List Cell} (v : Value)
    (hm : m.stack = resultCell v :: rest) :
    execute vars .ret m = .ok (some v) { m with stack := rest } := by
  refine (action_bind_of_ok (pop_eq hm)).trans ?_
  unfold resultCell
  by_cases hv : v.ty = .void
  · rw [if_pos hv, Value.void_of_ty hv]
    rfl
  · rw [if_neg hv]
    rfl

/-- The last two instructions end the run with the last value. -/
theorem endsThrough_return {k : Nat} (hσ : σ.Typed)
    (hp : Placed S.method.instructions k [.loadLocal resultSlot, .ret]) :
    ∃ m : Machine, m.arguments = S.arguments ∧ m.console = σ.console ∧
      EndsThrough (step S.method) (Carries S.method.vars) 1 (S.machine (resultCell last) k [] σ)
        (.ok last m) := by
  have hload := step_of_execute (m := S.machine (resultCell last) k [] σ) hp.head rfl
  have hreturn := step_of_execute_return
    (m := S.machine (resultCell last) (k + 1) [resultCell last] σ) hp.tail.head
    (execute_ret last rfl)
  exact ⟨_, rfl, rfl, _, .single (S.carries _ _ _ hσ) hload, S.carries _ _ _ hσ, hreturn⟩

namespace Style

variable {style : Style}

/-- Behind the last statement the closing of the method brings the variables back and returns the
    value that the style returns. -/
theorem answered_end (h : style.Compiled f program S) (hi : program.length ≤ i)
    (hrel : style.Related f program S start (⟨i, last⟩, σ) m) :
    style.Answered f program S start i m (Walk.step program (⟨i, last⟩, σ)) := by
  obtain rfl : i = program.length := Nat.le_antisymm hrel.place hi
  rw [Walk.step_end hi]
  have hp := h.placed_closing
  have hnamed := slots_named h.executable
  rw [← h.vars_eq] at hp hnamed
  have hσ := hrel.sound
  have htyped : ∀ x ∈ S.method.vars, (σ.bindings.read x).ty = x.ty := by
    intro x hx
    exact hσ.bindings.read (hnamed x hx).ne_error
  obtain rfl := hrel.machine
  have hlength : S.arguments.length = S.method.vars.length := by rw [h.arguments, h.vars_eq]
  have hcarries : ∀ m : Machine, m.locals = style.cell last :: cellsOf σ.bindings S.method.vars →
      m.console = σ.console → Carries S.method.vars m :=
    fun m hlocals hconsole => ⟨_, σ, hlocals, hconsole, hσ⟩
  let S' : Stage := ⟨S.method, S.method.vars.map σ.bindings.read, S.element⟩
  have hback : Through (step S.method) (Carries S.method.vars) (5 * S.method.vars.length)
      (S.machine (style.cell last) (style.blockIndex f program program.length) [] σ)
      (S'.machine (style.cell last)
        (style.blockIndex f program program.length + 5 * S.method.vars.length) [] σ) :=
    through_epilogue (by rw [h.vars_eq]; exact h.fits) htyped hnamed [] S.method.vars rfl _
      S.arguments hlength hp.left hcarries
  have hlast := hp.right
  rw [length_epilogue] at hlast
  obtain ⟨m, harguments, hconsole, hends⟩ := endsThrough_return (S := S') hσ hlast
  exact .finished (hends.after hback)
    (.ok (harguments.trans (congrArg (List.map σ.bindings.read) h.vars_eq)) hconsole hσ hrel.outside)

/-! ### The simulation -/

theorem answered (h : style.Compiled f program S) {state : Walk.Place × Store}
    (hrel : style.Related f program S start state m) :
    style.Answered f program S start state.1.index m (Walk.step program state) := by
  obtain ⟨⟨i, last⟩, σ⟩ := state
  cases hs : program[i]? with
  | none => exact answered_end h (List.getElem?_eq_none_iff.1 hs) hrel
  | some s =>
    have hmem := List.mem_of_getElem? hs
    have hvars := h.hasSlot hmem
    have hexecutable := h.executable s hmem
    cases hexecutable with
    | @declare x init hx hty hinit =>
      exact answered_value h hs (.assign hx hty hinit) hvars
        (settles_declare h hx hty hinit hvars hs hrel.sound)
        (fun v τ hv => Walk.step_declare_ok hs hv)
        (fun error τ hv => Walk.step_declare_error hs hv) hrel
    | @expr e he =>
      exact answered_value h hs he hvars (settles_expr h he hvars hs hrel.sound)
        (fun v τ hv => Walk.step_expr_ok hs hv) (fun error τ hv => Walk.step_expr_error hs hv) hrel
    | goto hl => exact answered_goto h hs hl hrel
    | gotoIf hl hty hc => exact answered_gotoIf h hs hl hty hc hvars hrel
    | label => exact answered_label hs hrel

theorem simulation (h : style.Compiled f program S) (start : Store) :
    Simulation (Walk.step program) (step S.method) (style.Related f program S start)
      (style.Matches (slotsOf program) start) (Carries S.method.vars)
      (fun state => program.length - state.1.index) := by
  constructor
  · intro state next m hrel hstep
    have hanswered := answered h hrel
    rw [hstep] at hanswered
    cases hanswered with
    | running hthrough _ hnext hrank => exact ⟨_, _, hthrough, hnext, hrank⟩
  · intro state m o hrel hstep
    have hanswered := answered h hrel
    rw [hstep] at hanswered
    cases hanswered with
    | finished hends hmatch => exact ⟨_, _, hends, hmatch⟩

end Style

/-! ### The beginning and the ends -/

theorem through_opening {vars : List Variable} (items : List Item)
    (hfits : vars.length ≤ 2147483648) (htyped : ∀ x ∈ vars, (σ.bindings.read x).ty = x.ty) :
    ∃ element : Option Nat,
      Through (step (methodOf vars items)) (·.index < (opening vars).length) (opening vars).length
        ((methodOf vars items).start σ)
        (Stage.machine ⟨methodOf vars items, vars.map σ.bindings.read, element⟩ .null
          (opening vars).length [] σ) := by
  have hplaced : Placed (methodOf vars items).instructions 0 (Frame.prologue 0 vars) :=
    (Placed.whole _).left.left
  have hlength : (opening vars).length = 5 * vars.length := length_prologue 0 vars
  obtain ⟨element, hthrough⟩ := through_prologue hfits htyped [] vars rfl 0 none hplaced
    (fun m hm => by rwa [Nat.zero_add, ← hlength] at hm)
  refine ⟨element, ?_⟩
  have hlocals : (methodOf vars items).locals.map (fun _ => Cell.null) =
      .null :: (cellsOf σ.bindings [] ++ vars.map fun _ => .null) := by
    simp only [Method.locals, methodOf, List.map_cons, List.map_map]
    rfl
  rw [Nat.zero_add, ← hlength] at hthrough
  rw [Method.start, hlocals]
  exact hthrough

namespace Style

/-- A program is compiled to the method of a stage, and once the machine of the method has gone
    through the opening, it stands beside the beginning of the walk. -/
structure Opened (style : Style) (f : Frame) (program : List Stmt) (S : Stage) (start : Store)
    (m : Machine) : Prop where
  method : compile (style.program program) = .ok S.method
  compiled : style.Compiled f program S
  through : ∃ k, Through (step S.method) (·.index < (opening S.method.vars).length) k
    (S.method.start start) m
  related : style.Related f program S start (Walk.Place.start, start) m

theorem exists_opened (style : Style) (h : ExecutableIn program program)
    (hfits : (slotsOf program).length ≤ 2147483648) (hσ : σ.Typed) :
    ∃ f S m, style.Opened f program S σ m := by
  obtain ⟨f, hvars, hcompile⟩ := style.compile_eq h
  rw [if_pos hfits] at hcompile
  have hnamed := slots_named h
  have htyped : ∀ x ∈ slotsOf program, (σ.bindings.read x).ty = x.ty := by
    intro x hx
    exact hσ.bindings.read (hnamed x hx).ne_error
  obtain ⟨element, hthrough⟩ := through_opening (style.blocks f program) hfits htyped
  refine ⟨f, ⟨methodOf (slotsOf program) (style.blocks f program),
    (slotsOf program).map σ.bindings.read, element⟩, _, hcompile, ?_, ⟨_, hthrough⟩, ?_⟩
  · exact ⟨h, hvars, rfl, List.length_map .., hfits⟩
  · refine ⟨Nat.zero_le _, hσ, SameOutside.refl _ _, ?_⟩
    cases style <;> rfl

namespace Opened

variable {style : Style}

theorem forward (h : style.Opened f program S σ m) {o : Outcome}
    (ho : EndsWith (Walk.step program) (Walk.Place.start, σ) o) :
    ∃ c, EndsWith (step S.method) (S.method.start σ) c ∧
      style.Matches (slotsOf program) σ o c := by
  obtain ⟨k, hthrough⟩ := h.through
  obtain ⟨c, hc, hmatch⟩ := (simulation h.compiled σ).forward h.related ho
  exact ⟨c, hthrough.steps.endsWith_iff.2 hc, hmatch⟩

theorem backward (h : style.Opened f program S σ m) {c : Machine.Ending}
    (hc : EndsWith (step S.method) (S.method.start σ) c) :
    ∃ o, EndsWith (Walk.step program) (Walk.Place.start, σ) o ∧
      style.Matches (slotsOf program) σ o c := by
  obtain ⟨k, hthrough⟩ := h.through
  exact (simulation h.compiled σ).backward h.related (hthrough.steps.endsWith_iff.1 hc)

end Opened

end Style

end

end SnippetLang.Code
