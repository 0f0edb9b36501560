import SnippetLang.Proofs.Compilation.Blocks

/-!
# Keeping and dropping values

A flat program is compiled in two styles: with its results marked, so that every value is kept as the
result of the method, or as it is, so that the values of its statements are dropped.  In both styles
the items fall into one block for each statement, in the order of the statements, and the variables
get the same slots, because a mark mentions no variable that its statement does not.
-/

namespace SnippetLang.Code

open Typed

/-- What becomes of the values of statements. -/
inductive Style where
  | keeping
  | dropping

/-- The code that drops a value of a type. -/
def dropCode (ty : Ty) : List Instr := if ty = .void then [] else [.pop]

namespace Style

/-- The program that is compiled. -/
def program : Style → List Stmt → List Stmt
  | keeping, program => markResults program
  | dropping, program => program

/-- What becomes of a statement. -/
def block (f : Frame) : Style → Stmt → List Item
  | dropping, .declare x init => (codeOf f init ++ [Instr.storeLocal (slotNumber f x)]).map .instr
  | dropping, .expr e => (codeOf f e ++ dropCode e.ty).map .instr
  | _, s => Code.block f s

def blocks (f : Frame) (style : Style) (program : List Stmt) : List Item :=
  program.flatMap (style.block f)

/-- The value that a method returns, from the last value of a walk. -/
def returned : Style → Value → Value
  | keeping, v => v
  | dropping, _ => .void

variable {f : Frame} {program code : List Stmt} {s : Stmt} {style : Style}

/-! ### Blocks -/

theorem straight_dropCode (ty : Ty) : Straight (dropCode ty) := by
  unfold Straight
  cases ty <;> decide

theorem sensible_block (hs : s.Executable program)
    (hvars : ∀ x ∈ stmtVariables s, HasSlot f.vars x) :
    ∀ item ∈ style.block f s, item.Sensible := by
  have hsensible := Code.sensible_block hs hvars
  cases style with
  | keeping => exact hsensible
  | dropping =>
    cases hs with
    | @declare x init _ _ hinit =>
      have hcode := (exprCode_eq hinit (List.forall_mem_append.1 hvars).1).2
      exact sensible_map_instr (hcode.append (.cons rfl .nil))
    | @expr e he =>
      exact sensible_map_instr ((exprCode_eq he hvars).2.append (straight_dropCode e.ty))
    | goto _ | gotoIf _ _ _ | label => exact hsensible

theorem label_mem_of_jump_mem_block (hs : s.Executable program) {i : Instr} {l : JumpLabel}
    (h : .jump i l ∈ style.block f s) : .label l ∈ program := by
  have hlabel := Code.label_mem_of_jump_mem_block (f := f) (i := i) (l := l) hs
  cases style with
  | keeping => exact hlabel h
  | dropping =>
    cases hs with
    | declare _ _ _ => simp [block] at h
    | expr _ => simp [block] at h
    | goto _ | gotoIf _ _ _ | label => exact hlabel h

theorem markedAt?_block (l : JumpLabel) (s : Stmt) :
    markedAt? l (style.block f s) = if s.label? = some l then some 0 else none := by
  rw [← Code.markedAt?_block (f := f)]
  cases style with
  | keeping => rfl
  | dropping =>
    cases s with
    | declare x init =>
      exact (markedAt?_map_instr l _).trans (markedAt?_map_instr l _).symm
    | expr e => exact (markedAt?_map_instr l _).trans (markedAt?_map_instr l _).symm
    | _ => rfl

/-- The last mark of a label in the method stands where jumps to the label go on. -/
theorem markedAt?_blocks (l : JumpLabel) (program : List Stmt) :
    markedAt? l (style.blocks f program) =
      (labelTarget? l program).map fun i => (rawCode (style.blocks f (program.take i))).length :=
  markedAt?_flatMap (markedAt?_block l) (by cases style <;> rfl) program

theorem sensible_blocks (h : ExecutableIn program code) (hvars : Covers f.vars code) :
    ∀ item ∈ style.blocks f code, item.Sensible := by
  intro item hitem
  obtain ⟨s, hs, hitem⟩ := List.mem_flatMap.1 hitem
  exact sensible_block (h s hs) (hvars s hs) item hitem

/-- Every jump has a label to go to. -/
theorem marked_of_jump (h : ExecutableIn program program) {i : Instr} {l : JumpLabel}
    (hl : .jump i l ∈ style.blocks f program) : markedAt? l (style.blocks f program) ≠ none := by
  obtain ⟨s, hs, hl⟩ := List.mem_flatMap.1 hl
  obtain ⟨j, hj, -⟩ := exists_labelTarget? (label_mem_of_jump_mem_block (h s hs) hl)
  rw [markedAt?_blocks, hj]
  exact nofun

/-! ### The items of programs -/

theorem beginsWithResult_eq_false (h : ExecutableIn program code) :
    beginsWithResult code = false := by
  cases code with
  | nil => rfl
  | cons s rest => cases h s (List.mem_cons_self ..) <;> rfl

theorem programItems_dropping (h : ExecutableIn program code) (hvars : Covers f.vars code) :
    programItems f code = .ok (dropping.blocks f code) := by
  induction code with
  | nil => rfl
  | cons s rest ih =>
    obtain ⟨hs, hrest⟩ := List.forall_mem_cons.1 h
    obtain ⟨hvars, hvars'⟩ := List.forall_mem_cons.1 hvars
    have hothers := ih hrest hvars'
    have hitems : stmtItems f (beginsWithResult rest) s = .ok (dropping.block f s) := by
      rw [beginsWithResult_eq_false hrest]
      cases hs with
      | @declare x init _ _ hinit =>
        obtain ⟨hi, hx⟩ := List.forall_mem_append.1 hvars
        have hcode := (exprCode_eq hinit hi).1
        have hslot := slot_eq (hx x (List.mem_singleton_self x))
        simp only [stmtItems, hcode, hslot, bind, Except.bind]
        rfl
      | @expr e he =>
        have hcode := (exprCode_eq he hvars).1
        simp only [stmtItems, hcode, bind, Except.bind, block, dropCode, Bool.false_or,
          decide_eq_true_eq]
        split <;> simp [pure, Except.pure]
      | goto _ => rfl
      | @gotoIf l c jumpIf _ _ hc =>
        have hcode := (exprCode_eq hc hvars).1
        simp only [stmtItems, hcode, bind, Except.bind]
        rfl
      | label => rfl
    simp only [programItems, hitems, hothers, bind, Except.bind]
    rfl

theorem programItems_eq (h : ExecutableIn program code) (hvars : Covers f.vars code) :
    programItems f (style.program code) = .ok (style.blocks f code) := by
  cases style with
  | keeping => exact Code.programItems_eq h hvars
  | dropping => exact programItems_dropping h hvars

/-! ### The variables of programs -/

/-- Marking the results of a statement mentions nothing that needs another slot. -/
theorem foldl_withSlot_marked (vars : List Variable) (s : Stmt) :
    (s.marked.flatMap stmtVariables).foldl withSlot vars =
      (stmtVariables s).foldl withSlot vars := by
  cases s with
  | declare x init =>
    have hx : HasSlot ((exprVariables init ++ [x]).foldl withSlot vars) x :=
      hasSlot_foldl vars (List.mem_append_right _ (List.mem_singleton_self x))
    have hvars : (Stmt.declare x init).marked.flatMap stmtVariables =
        (exprVariables init ++ [x]) ++ [x] := by
      simp [Stmt.marked, stmtVariables, exprVariables]
    rw [hvars, List.foldl_append]
    exact withSlot_of_hasSlot hx
  | expr e => simp [Stmt.marked, stmtVariables]
  | _ => simp [Stmt.marked]

theorem slotted_program (style : Style) (program : List Stmt) :
    slotted ((style.program program).flatMap stmtVariables) = slotsOf program := by
  cases style with
  | keeping => rfl
  | dropping =>
    have hfoldl (vars : List Variable) : (program.flatMap stmtVariables).foldl withSlot vars =
        ((markResults program).flatMap stmtVariables).foldl withSlot vars := by
      induction program generalizing vars with
      | nil => rfl
      | cons s rest ih =>
        have hmark : markResults (s :: rest) = s.marked ++ markResults rest := rfl
        rw [hmark, List.flatMap_append, List.foldl_append, foldl_withSlot_marked, ← ih,
          List.flatMap_cons, List.foldl_append]
    exact hfoldl []

/-! ### Compiling -/

/-- In both styles an executable program is compiled to the method of its blocks, unless it needs too
    many slots. -/
theorem compile_eq (style : Style) (h : ExecutableIn program program) :
    ∃ f : Frame, f.vars = slotsOf program ∧
      compile (style.program program) = if (slotsOf program).length ≤ 2147483648
        then .ok (methodOf (slotsOf program) (style.blocks f program))
        else .error (.invalidProgram .tooManyVariables) := by
  have hslots := slotted_program style program
  have hitems : ∀ f : Frame, f.vars = slotted ((style.program program).flatMap stmtVariables) →
      programItems f (style.program program) = .ok (style.blocks f program) ∧
        (∀ item ∈ style.blocks f program, item.Sensible) ∧
        ∀ i l, .jump i l ∈ style.blocks f program →
          markedAt? l (style.blocks f program) ≠ none := by
    intro f hvars
    have hcovers : Covers f.vars program := by
      rw [hvars, hslots]
      exact covers_slotsOf program
    exact ⟨programItems_eq h hcovers, sensible_blocks h hcovers, fun i l => marked_of_jump h⟩
  obtain ⟨f, hvars, hcompile⟩ := compile_of_items (fun f => style.blocks f program) hitems
  rw [hslots] at hvars
  exact ⟨f, hvars, hvars ▸ hcompile⟩

end Style

/-- An executable program is compiled to the method of its blocks, unless it needs too many slots. -/
theorem compile_eq {program : List Stmt} (h : ExecutableIn program program) :
    ∃ f : Frame, f.vars = slotsOf program ∧
      compile (markResults program) = if (slotsOf program).length ≤ 2147483648
        then .ok (methodOf (slotsOf program) (blocks f program))
        else .error (.invalidProgram .tooManyVariables) := Style.keeping.compile_eq h

end SnippetLang.Code
