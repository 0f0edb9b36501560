import SnippetLang.Proofs.Compilation.Items
import SnippetLang.Proofs.Safety.Walking

/-!
# Blocks

The items of a compiled program fall into blocks, one for each statement before its results were
marked.  Blocks have the order of their statements, so a jump behind a label in the program is a jump
to the end of a block in the method.  Executable programs with slots for their variables compile.
-/

namespace SnippetLang.Code

open Typed

variable {f : Frame}

/-! ### The code of well-typed expressions -/

/-- The code of an expression that has one. -/
def codeOf (f : Frame) (e : Expr) : List Instr := (exprCode f e).toOption.getD []

/-- The slot of a variable that has one. -/
def slotNumber (f : Frame) (x : Variable) : Nat := (f.slot x).toOption.getD 0

def Straight (code : List Instr) : Prop := ∀ i ∈ code, i.target? = none

namespace Straight

variable {i : Instr} {p q : List Instr}

theorem nil : Straight [] := fun _ h => nomatch h

theorem cons (hi : i.target? = none) (hp : Straight p) : Straight (i :: p) :=
  List.forall_mem_cons.2 ⟨hi, hp⟩

theorem append (hp : Straight p) (hq : Straight q) : Straight (p ++ q) :=
  List.forall_mem_append.2 ⟨hp, hq⟩

end Straight

theorem straight_prologue (index : Nat) (vars : List Variable) :
    Straight (Frame.prologue index vars) := by
  induction vars generalizing index with
  | nil => exact .nil
  | cons x rest ih =>
    exact .append (.cons rfl (.cons rfl (.cons rfl (.cons rfl (.cons rfl .nil))))) (ih (index + 1))

theorem straight_epilogue (index : Nat) (vars : List Variable) :
    Straight (Frame.epilogue index vars) := by
  induction vars generalizing index with
  | nil => exact .nil
  | cons x rest ih =>
    exact .append (.cons rfl (.cons rfl (.cons rfl (.cons rfl (.cons rfl .nil))))) (ih (index + 1))

theorem straight_closing (vars : List Variable) : Straight (closing vars) :=
  (straight_epilogue 0 vars).append (.cons rfl (.cons rfl .nil))

theorem straight_unaryCode (kind : UnaryKind) : Straight (unaryCode kind) := by
  unfold Straight
  cases kind <;> decide

theorem straight_binaryCode (kind : BinaryKind) : Straight (binaryCode kind) := by
  unfold Straight
  cases kind <;> decide

theorem straight_resultCode (ty : Ty) : Straight (resultCode ty) := by
  unfold Straight
  cases ty <;> decide

theorem exists_literalCode {v : Value} (h : v.ty.Named) :
    ∃ i : Instr, exprCode f (.literal v) = .ok [i] ∧ i.target? = none := by
  cases v with
  | bool b => exact ⟨_, rfl, rfl⟩
  | int n => exact ⟨_, rfl, rfl⟩
  | string s => exact ⟨_, rfl, rfl⟩
  | void => exact absurd rfl h.ne_void

mutual

/-- A well-typed expression has code when its variables have slots, and no branches in it. -/
theorem exists_exprCode : (e : Expr) → e.WellTyped →
    (∀ x ∈ exprVariables e, HasSlot f.vars x) →
    ∃ code, exprCode f e = .ok code ∧ Straight code
  | .error, h, _ => nomatch h
  | .literal v, .literal hv, _ => by
    obtain ⟨i, hcode, hi⟩ := exists_literalCode (f := f) hv
    exact ⟨[i], hcode, .cons hi .nil⟩
  | .read x, _, hvars => by
    obtain ⟨slot, hslot⟩ := exists_slot (hvars x (List.mem_singleton_self x))
    refine ⟨[.loadLocal slot], ?_, .cons rfl .nil⟩
    simp only [exprCode, hslot]
    rfl
  | .assign x value, .assign _ _ hvalue, hvars => by
    obtain ⟨hv, hx⟩ := List.forall_mem_append.1 hvars
    obtain ⟨code, hcode, hstraight⟩ := exists_exprCode value hvalue hv
    obtain ⟨slot, hslot⟩ := exists_slot (hx x (List.mem_singleton_self x))
    refine ⟨code ++ [.storeLocal slot, .loadLocal slot], ?_,
      hstraight.append (.cons rfl (.cons rfl .nil))⟩
    simp only [exprCode, hcode, hslot]
    rfl
  | .unary row operand, .unary _ _ hoperand, hvars => by
    obtain ⟨code, hcode, hstraight⟩ := exists_exprCode operand hoperand hvars
    refine ⟨code ++ unaryCode row.kind, ?_, hstraight.append (straight_unaryCode _)⟩
    simp only [exprCode, hcode]
    rfl
  | .binary left row right, .binary _ _ _ hleft hright, hvars => by
    obtain ⟨hl, hr⟩ := List.forall_mem_append.1 hvars
    obtain ⟨first, hfirst, hstraight⟩ := exists_exprCode left hleft hl
    obtain ⟨second, hsecond, hstraight'⟩ := exists_exprCode right hright hr
    refine ⟨first ++ second ++ binaryCode row.kind, ?_,
      (hstraight.append hstraight').append (straight_binaryCode _)⟩
    simp only [exprCode, hfirst, hsecond]
    rfl
  | .call g args, .call hg _ hargs, hvars => by
    obtain ⟨r, hr, -⟩ := Routine.ofFunction_of_mem hg
    obtain ⟨code, hcode, hstraight⟩ := exists_exprsCode args hargs hvars
    refine ⟨code ++ [.call r], ?_, hstraight.append (.cons rfl .nil)⟩
    simp only [exprCode, hr, hcode]
    rfl
  | .convert target e, .convert hc he, hvars => by
    obtain ⟨r, hr, -⟩ := Routine.ofConversion_of_converts hc
    obtain ⟨code, hcode, hstraight⟩ := exists_exprCode e he hvars
    refine ⟨code ++ [.call r], ?_, hstraight.append (.cons rfl .nil)⟩
    simp only [exprCode, hr, hcode]
    rfl

theorem exists_exprsCode : (es : List Expr) → (∀ e ∈ es, e.WellTyped) →
    (∀ x ∈ exprsVariables es, HasSlot f.vars x) →
    ∃ code, exprsCode f es = .ok code ∧ Straight code
  | [], _, _ => ⟨[], rfl, .nil⟩
  | e :: es, h, hvars => by
    obtain ⟨he, hes⟩ := List.forall_mem_cons.1 h
    obtain ⟨hfirst, hrest⟩ := List.forall_mem_append.1 hvars
    obtain ⟨code, hcode, hstraight⟩ := exists_exprCode e he hfirst
    obtain ⟨more, hmore, hstraight'⟩ := exists_exprsCode es hes hrest
    refine ⟨code ++ more, ?_, hstraight.append hstraight'⟩
    simp only [exprsCode, hcode, hmore]
    rfl

end

theorem exprCode_eq {e : Expr} (h : e.WellTyped) (hvars : ∀ x ∈ exprVariables e, HasSlot f.vars x) :
    exprCode f e = .ok (codeOf f e) ∧ Straight (codeOf f e) := by
  obtain ⟨code, hcode, hstraight⟩ := exists_exprCode e h hvars
  unfold codeOf
  rw [hcode]
  exact ⟨rfl, hstraight⟩

theorem slot_eq {x : Variable} (h : HasSlot f.vars x) : f.slot x = .ok (slotNumber f x) := by
  obtain ⟨slot, hslot⟩ := exists_slot h
  unfold slotNumber
  rw [hslot]
  rfl

theorem codeOf_assign {x : Variable} {init : Expr} (hinit : init.WellTyped)
    (hvars : ∀ y ∈ exprVariables init ++ [x], HasSlot f.vars y) :
    codeOf f (.assign x init) =
      codeOf f init ++ [.storeLocal (slotNumber f x), .loadLocal (slotNumber f x)] := by
  obtain ⟨hvalue, hx⟩ := List.forall_mem_append.1 hvars
  have hslot := slot_eq (hx x (List.mem_singleton_self x))
  have hcode := (exprCode_eq hinit hvalue).1
  have hassign : exprCode f (.assign x init) =
      .ok (codeOf f init ++ [.storeLocal (slotNumber f x), .loadLocal (slotNumber f x)]) := by
    simp only [exprCode, hcode, hslot]
    rfl
  conv => lhs; unfold codeOf
  rw [hassign]
  rfl

/-! ### The block of a statement -/

/-- What becomes of a statement of a flat program whose results are marked: code for its expression,
    then code that stores the value, in a variable or as the result or both, or that jumps. -/
def block (f : Frame) : Stmt → List Item
  | .declare x init =>
    (codeOf f init ++ [Instr.storeLocal (slotNumber f x), Instr.loadLocal (slotNumber f x)] ++
      resultCode x.ty).map .instr
  | .expr e => (codeOf f e ++ resultCode e.ty).map .instr
  | .goto l => [.jump (.branch 0) l]
  | .gotoIf l condition jumpIf =>
    (codeOf f condition).map .instr ++ [.jump (if jumpIf then .branchTrue 0 else .branchFalse 0) l]
  | .label l => [.mark l]
  | _ => []

def blocks (f : Frame) (program : List Stmt) : List Item := program.flatMap (block f)

/-- All variables of a program have slots. -/
def Covers (vars : List Variable) (program : List Stmt) : Prop :=
  ∀ s ∈ program, ∀ x ∈ stmtVariables s, HasSlot vars x

section

variable {program code : List Stmt} {s : Stmt} {i : Nat}

/-- The items of a statement with its result marked are its block. -/
theorem programItems_marked (hs : s.Executable program)
    (hvars : ∀ x ∈ stmtVariables s, HasSlot f.vars x) {rest : List Stmt} {items : List Item}
    (hrest : programItems f rest = .ok items) :
    programItems f (s.marked ++ rest) = .ok (block f s ++ items) := by
  cases hs with
  | @declare x init hx hty hinit =>
    obtain ⟨hi, hx'⟩ := List.forall_mem_append.1 hvars
    have hcode := (exprCode_eq hinit hi).1
    have hslot := slot_eq (hx' x (List.mem_singleton_self x))
    simp [Stmt.marked, programItems, stmtItems, exprCode, beginsWithResult, hcode, hslot, hrest,
      bind, Except.bind, pure, Except.pure, block]
  | @expr e he =>
    have hcode := (exprCode_eq he hvars).1
    simp [Stmt.marked, programItems, stmtItems, beginsWithResult, hcode, hrest, bind, Except.bind,
      pure, Except.pure, block]
  | goto _ =>
    simp [Stmt.marked, programItems, stmtItems, hrest, bind, Except.bind, pure, Except.pure, block]
  | @gotoIf l c jumpIf _ _ hc =>
    have hcode := (exprCode_eq hc hvars).1
    simp [Stmt.marked, programItems, stmtItems, hcode, hrest, bind, Except.bind, pure, Except.pure,
      block]
  | label =>
    simp [Stmt.marked, programItems, stmtItems, hrest, bind, Except.bind, pure, Except.pure, block]

theorem programItems_eq (h : ExecutableIn program code) (hvars : Covers f.vars code) :
    programItems f (markResults code) = .ok (blocks f code) := by
  induction code with
  | nil => rfl
  | cons s rest ih =>
    obtain ⟨hs, hrest⟩ := List.forall_mem_cons.1 h
    obtain ⟨hvars, hvars'⟩ := List.forall_mem_cons.1 hvars
    exact programItems_marked hs hvars (ih hrest hvars')

theorem sensible_map_instr {c : List Instr} (h : Straight c) :
    ∀ item ∈ c.map Item.instr, item.Sensible := by
  intro item hitem
  obtain ⟨i, hi, rfl⟩ := List.mem_map.1 hitem
  exact h i hi

theorem sensible_block (hs : s.Executable program)
    (hvars : ∀ x ∈ stmtVariables s, HasSlot f.vars x) : ∀ item ∈ block f s, item.Sensible := by
  cases hs with
  | @declare x init _ _ hinit =>
    have hcode := (exprCode_eq hinit (List.forall_mem_append.1 hvars).1).2
    exact sensible_map_instr
      ((hcode.append (.cons rfl (.cons rfl .nil))).append (straight_resultCode x.ty))
  | @expr e he =>
    exact sensible_map_instr ((exprCode_eq he hvars).2.append (straight_resultCode e.ty))
  | goto _ =>
    intro item hitem
    obtain rfl := List.mem_singleton.1 hitem
    exact nofun
  | @gotoIf l c jumpIf _ _ hc =>
    refine List.forall_mem_append.2 ⟨sensible_map_instr (exprCode_eq hc hvars).2, ?_⟩
    intro item hitem
    obtain rfl := List.mem_singleton.1 hitem
    cases jumpIf <;> exact nofun
  | label =>
    intro item hitem
    obtain rfl := List.mem_singleton.1 hitem
    trivial

/-- A block jumps to labels that the program marks. -/
theorem label_mem_of_jump_mem_block (hs : s.Executable program) {i : Instr} {l : JumpLabel}
    (h : .jump i l ∈ block f s) : .label l ∈ program := by
  cases hs with
  | declare _ _ _ => simp [block] at h
  | expr _ => simp [block] at h
  | goto hl =>
    cases List.mem_singleton.1 h
    exact hl
  | gotoIf hl _ _ =>
    rcases List.mem_append.1 h with h | h
    · simp at h
    · cases List.mem_singleton.1 h
      exact hl
  | label => cases List.mem_singleton.1 h

/-! ### Places in programs and methods -/

section

variable {g : Stmt → List Item}

/-- The items of one more statement stand behind those of the statements before. -/
theorem length_rawCode_take_succ (g : Stmt → List Item) {i : Nat} (h : program[i]? = some s) :
    (rawCode ((program.take (i + 1)).flatMap g)).length =
      (rawCode ((program.take i).flatMap g)).length + (rawCode (g s)).length := by
  rw [List.take_add_one, h]
  simp [rawCode_append]

/-- When statements become items, the last mark of a label stands where jumps to the label go on. -/
theorem markedAt?_flatMap {l : JumpLabel}
    (hg : ∀ s, markedAt? l (g s) = if s.label? = some l then some 0 else none)
    (hlabel : rawCode (g (.label l)) = []) (program : List Stmt) :
    markedAt? l (program.flatMap g) =
      (labelTarget? l program).map fun i => (rawCode ((program.take i).flatMap g)).length := by
  induction program with
  | nil => rfl
  | cons s rest ih =>
    rw [labelTarget?_cons, List.flatMap_cons, markedAt?_append, ih, hg]
    cases labelTarget? l rest with
    | some j => simp [rawCode_append]
    | none =>
      by_cases hs : s.label? = some l
      · cases s with
        | label m =>
          obtain rfl := Option.some.inj hs
          simp [hs, hlabel]
        | _ => cases hs
      · simp [hs]

/-- The instructions of a statement stand among those of the program behind the ones before. -/
theorem placed_flatMap (g : Stmt → List Item) (hs : program[i]? = some s) (target : JumpLabel → Nat) :
    Placed (resolvedCode target (program.flatMap g)) (rawCode ((program.take i).flatMap g)).length
      (resolvedCode target (g s)) := by
  obtain ⟨hi, rfl⟩ := List.getElem?_eq_some_iff.1 hs
  refine ⟨resolvedCode target ((program.take i).flatMap g),
    resolvedCode target ((program.drop (i + 1)).flatMap g), ?_, length_resolvedCode target _⟩
  have hsplit : program = program.take i ++ program[i] :: program.drop (i + 1) := by
    rw [List.getElem_cons_drop, List.take_append_drop]
  conv => lhs; rw [hsplit]
  simp only [List.flatMap_append, List.flatMap_cons, resolvedCode_append, List.append_assoc]

end

/-- How many instructions stand before the block of an index. -/
def offset (f : Frame) (program : List Stmt) (i : Nat) : Nat :=
  (rawCode (blocks f (program.take i))).length

theorem markedAt?_map_instr (l : JumpLabel) (c : List Instr) :
    markedAt? l (c.map .instr) = none := by
  induction c with
  | nil => rfl
  | cons i rest ih => simp [markedAt?, ih]

theorem markedAt?_block (l : JumpLabel) (s : Stmt) :
    markedAt? l (block f s) = if s.label? = some l then some 0 else none := by
  cases s with
  | declare x init => exact markedAt?_map_instr l _
  | expr e => exact markedAt?_map_instr l _
  | gotoIf m c jumpIf =>
    simp only [block, markedAt?_append, markedAt?_map_instr]
    simp [markedAt?, Stmt.label?]
  | label m => simp [block, markedAt?, Stmt.label?]
  | _ => rfl

/-! ### Whole programs -/

/-- The variables that a program needs slots for, one for each cell. -/
def slotsOf (program : List Stmt) : List Variable :=
  slotted ((markResults program).flatMap stmtVariables)

theorem mem_marked (s : Stmt) : s ∈ s.marked := by
  cases s <;> exact List.mem_cons_self ..

theorem covers_slotsOf (program : List Stmt) : Covers (slotsOf program) program := by
  intro s hs x hx
  refine hasSlot_slotted (List.mem_flatMap.2 ⟨s, ?_, hx⟩)
  exact List.mem_flatMap.2 ⟨s, hs, mem_marked s⟩

end

end SnippetLang.Code
