import SnippetLang.Proofs.Compilation.Symbols
import SnippetLang.Proofs.Lowering.FlatForm
import SnippetLang.Proofs.Machines.Accepted
import SnippetLang.Proofs.Typing.Trees

/-!
# Which programs compile

A program is compiled to a method exactly if code can be emitted for each of its statements and
expressions, all labels that it jumps to are marked in it, and its variables can be counted.  This is
said of arbitrary programs, well-typed or not.  In particular the slots that are asked for are always
there: the pass that gives slots meets every variable that the pass that emits code does.
-/

namespace SnippetLang

namespace Typed

/-- A statement that code can be emitted for: one with no statements inside it. -/
def Stmt.Emittable : Stmt → Prop
  | .block _ | .ifThen _ _ | .ifElse _ _ _ | .whileDo _ _ | .doWhile _ _ | .count _ _ _ _ => False
  | _ => True

/-- An expression that code can be emitted for once there is code for those inside it. -/
def Expr.Emittable : Expr → Prop
  | .error => False
  | .literal v => v ≠ .void
  | .call f _ => Routine.ofName? (Routine.functionName f) ≠ none
  | .convert target e => Routine.ofName? (Routine.conversionName e.ty target) ≠ none
  | _ => True

/-- The variable that an expression itself reads or assigns. -/
def Expr.used? : Expr → Option Variable
  | .read x => some x
  | .assign x _ => some x
  | _ => none

/-- A variable is declared by a statement, or read or assigned somewhere inside it. -/
def Stmt.Uses (s : Stmt) (x : Variable) : Prop :=
  s.declared? = some x ∨ ∃ e ∈ s.exprs, e.used? = some x

/-- What a program must be like to have code. -/
structure Compilable (program : List Stmt) : Prop where
  statements : ∀ s ∈ program, s.Emittable
  expressions : ∀ e ∈ Stmt.allExprs program, e.Emittable
  labels : ∀ l ∈ targets program, l ∈ marks program

end Typed

namespace Code

open Typed

/-! ### When code is emitted -/

/-- An attempt succeeds exactly under a condition, and fails for no flaw of the method that is being
    built. -/
inductive Decides (good : Prop) {α : Type} : Except InternalError α → Prop where
  | ok (a : α) : good → Decides good (.ok a)
  | error (e : InternalError) : ¬ good → (∀ flaw, e ≠ .invalidProgram flaw) → Decides good (.error e)

namespace Decides

variable {α β : Type} {p q : Prop} {x : Except InternalError α}

theorem iff (h : Decides p x) (hpq : p ↔ q) : Decides q x := by
  cases h with
  | ok a hp => exact .ok a (hpq.1 hp)
  | error e hp he => exact .error e (mt hpq.2 hp) he

theorem bind {g : α → Except InternalError β} (hx : Decides p x)
    (hg : ∀ a, Decides q (g a)) : Decides (p ∧ q) (x >>= g) := by
  cases hx with
  | error e hp he => exact .error e (mt And.left hp) he
  | ok a hp =>
    show Decides (p ∧ q) (g a)
    exact (hg a).iff ⟨fun hq => ⟨hp, hq⟩, And.right⟩

theorem map (hx : Decides p x) (g : α → β) : Decides p (x >>= fun a => pure (g a)) := by
  cases hx with
  | error e hp he => exact .error e hp he
  | ok a hp => exact .ok (g a) hp

theorem unexpected (hp : ¬ p) {consumer : Consumer} {kind : String} :
    Decides p (.error (.unexpectedNode consumer kind) : Except InternalError α) :=
  .error _ hp nofun

end Decides

section

variable {f : Frame}

theorem decides_slot {x : Variable} (h : HasSlot f.vars x) : Decides True (f.slot x) := by
  rcases exists_slot h with ⟨slot, hslot⟩
  rw [hslot]
  exact .ok slot trivial

theorem decides_ofFunction (g : Function) :
    Decides (Routine.ofName? (Routine.functionName g) ≠ none) (Routine.ofFunction g) := by
  unfold Routine.ofFunction
  cases h : Routine.ofName? (Routine.functionName g) with
  | some r => exact .ok r nofun
  | none => exact .error _ (by simp) nofun

theorem decides_ofConversion (source target : Ty) :
    Decides (Routine.ofName? (Routine.conversionName source target) ≠ none)
      (Routine.ofConversion source target) := by
  unfold Routine.ofConversion
  cases h : Routine.ofName? (Routine.conversionName source target) with
  | some r => exact .ok r nofun
  | none => exact .error _ (by simp) nofun

mutual

/-- An expression has code exactly if all expressions inside it can have. -/
theorem decides_exprCode : (e : Expr) → (∀ x ∈ exprVariables e, HasSlot f.vars x) →
    Decides (∀ part ∈ e.parts, part.Emittable) (exprCode f e)
  | .error, _ => .unexpected (by simp [Expr.parts, Expr.Emittable])
  | .literal v, _ => by
    cases v with
    | void => exact .unexpected (by simp [Expr.parts, Expr.Emittable])
    | bool b => exact .ok _ (by simp [Expr.parts, Expr.Emittable])
    | int n => exact .ok _ (by simp [Expr.parts, Expr.Emittable])
    | string s => exact .ok _ (by simp [Expr.parts, Expr.Emittable])
  | .read x, h => by
    refine ((decides_slot (h x ?_)).map _).iff ?_
    · simp [exprVariables]
    · simp [Expr.parts, Expr.Emittable]
  | .assign x value, h => by
    simp only [exprVariables, List.forall_mem_append] at h
    refine ((decides_exprCode value h.1).bind fun code => (decides_slot (h.2 x ?_)).map _).iff ?_
    · simp
    · simp [Expr.parts, Expr.Emittable]
  | .unary op operand, h => by
    refine ((decides_exprCode operand h).map _).iff ?_
    simp [Expr.parts, Expr.Emittable]
  | .binary left op right, h => by
    simp only [exprVariables, List.forall_mem_append] at h
    refine ((decides_exprCode left h.1).bind fun first => (decides_exprCode right h.2).map _).iff ?_
    simp [Expr.parts, Expr.Emittable, or_imp, forall_and]
  | .call g args, h => by
    refine ((decides_ofFunction g).bind fun r => (decides_exprsCode args h).map _).iff ?_
    simp [Expr.parts, Expr.Emittable]
  | .convert target e, h => by
    refine ((decides_ofConversion e.ty target).bind fun r => (decides_exprCode e h).map _).iff ?_
    simp [Expr.parts, Expr.Emittable]

theorem decides_exprsCode : (es : List Expr) → (∀ x ∈ exprsVariables es, HasSlot f.vars x) →
    Decides (∀ part ∈ Expr.allParts es, part.Emittable) (exprsCode f es)
  | [], _ => .ok _ (by simp [Expr.allParts])
  | e :: es, h => by
    simp only [exprsVariables, List.forall_mem_append] at h
    refine ((decides_exprCode e h.1).bind fun first => (decides_exprsCode es h.2).map _).iff ?_
    simp [Expr.allParts, or_imp, forall_and]

end

/-- A statement has items exactly if it can have code and the expressions inside it can. -/
theorem decides_stmtItems (kept : Bool) {s : Stmt} (h : ∀ x ∈ stmtVariables s, HasSlot f.vars x) :
    Decides (s.Emittable ∧ ∀ e ∈ s.exprs, e.Emittable) (stmtItems f kept s) := by
  cases s with
  | declare x init =>
    simp only [stmtVariables, List.forall_mem_append] at h
    refine ((decides_exprCode init h.1).bind fun code => (decides_slot (h.2 x ?_)).map _).iff ?_
    · simp
    · simp [Stmt.Emittable, Stmt.exprs]
  | expr e =>
    refine ((decides_exprCode e h).map _).iff ?_
    simp [Stmt.Emittable, Stmt.exprs]
  | gotoIf l condition jumpIf =>
    refine ((decides_exprCode condition h).map _).iff ?_
    simp [Stmt.Emittable, Stmt.exprs]
  | goto l => exact .ok _ (by simp [Stmt.Emittable, Stmt.exprs])
  | label l => exact .ok _ (by simp [Stmt.Emittable, Stmt.exprs])
  | result ty => exact .ok _ (by simp [Stmt.Emittable, Stmt.exprs])
  | _ => exact .unexpected (by simp [Stmt.Emittable])

/-- A program has items exactly if its statements and expressions can have code. -/
theorem decides_programItems {program : List Stmt}
    (h : ∀ x ∈ program.flatMap stmtVariables, HasSlot f.vars x) :
    Decides ((∀ s ∈ program, s.Emittable) ∧ ∀ e ∈ Stmt.allExprs program, e.Emittable)
      (programItems f program) := by
  induction program with
  | nil => exact .ok _ (by simp [Stmt.allExprs])
  | cons s rest ih =>
    simp only [List.flatMap_cons, List.forall_mem_append] at h
    refine ((decides_stmtItems _ h.1).bind fun first => (ih h.2).map _).iff ?_
    simp only [Stmt.allExprs, List.forall_mem_cons, List.forall_mem_append]
    tauto

/-! ### Where jumps go -/

/-- The items of a statement wait for the label that it jumps to, and mark the label that it is. -/
theorem labels_stmtItems {kept : Bool} {s : Stmt} {items : List Item}
    (h : stmtItems f kept s = .ok items) :
    items.filterMap Item.awaited? = s.target?.toList ∧ ∀ l, .mark l ∈ items ↔ s.label? = some l := by
  have hcode : ∀ code : List Instr, (code.map Item.instr).filterMap Item.awaited? = [] := by
    simp [Item.awaited?]
  cases stmtItems_cases h with
  | declare =>
    refine ⟨hcode _, ?_⟩
    simp [Stmt.label?]
  | value =>
    refine ⟨hcode _, ?_⟩
    simp [Stmt.label?]
  | dropped =>
    refine ⟨hcode _, ?_⟩
    simp [Stmt.label?]
  | gotoIf =>
    rw [List.filterMap_append, hcode]
    refine ⟨rfl, ?_⟩
    simp [Stmt.label?]
  | goto =>
    refine ⟨rfl, ?_⟩
    simp [Stmt.label?]
  | label =>
    refine ⟨rfl, ?_⟩
    simp [Stmt.label?, eq_comm]
  | result =>
    refine ⟨hcode _, ?_⟩
    simp [Stmt.label?]

/-- The items of a program wait for the labels that it jumps to, and mark those that it marks. -/
theorem labels_programItems {program : List Stmt} {items : List Item}
    (h : programItems f program = .ok items) :
    items.filterMap Item.awaited? = targets program ∧ ∀ l, .mark l ∈ items ↔ l ∈ marks program := by
  induction program generalizing items with
  | nil =>
    cases h
    simp [targets, marks]
  | cons s rest ih =>
    rcases bind_eq_ok h with ⟨first, hfirst, h⟩
    rcases bind_eq_ok h with ⟨others, hothers, h⟩
    cases h
    rcases labels_stmtItems hfirst with ⟨hawaited, hmarks⟩
    rcases ih hothers with ⟨hawaited', hmarks'⟩
    constructor
    · rw [List.filterMap_append, hawaited, hawaited']
      cases hs : s.target? <;> simp [targets, hs]
    · intro l
      rw [List.mem_append, hmarks, hmarks', mem_marks_cons]

theorem unmarked?_programItems {program : List Stmt} {items : List Item}
    (h : programItems f program = .ok items) :
    unmarked? items = none ↔ ∀ l ∈ targets program, l ∈ marks program := by
  rcases labels_programItems h with ⟨hawaited, hmarks⟩
  simp only [unmarked?, hawaited, hmarks, List.find?_eq_none, decide_eq_true_eq, not_not]

end

/-! ### Which variables have slots -/

mutual

/-- The variables of an expression are those that the expressions inside it read or assign. -/
theorem mem_exprVariables {x : Variable} : (e : Expr) →
    (x ∈ exprVariables e ↔ ∃ part ∈ e.parts, part.used? = some x)
  | .error => by simp [exprVariables, Expr.parts, Expr.used?]
  | .literal v => by simp [exprVariables, Expr.parts, Expr.used?]
  | .read y => by simp [exprVariables, Expr.parts, Expr.used?, eq_comm]
  | .assign y value => by
    simp [exprVariables, Expr.parts, Expr.used?, mem_exprVariables value, eq_comm, or_comm]
  | .unary op operand => by
    simp [exprVariables, Expr.parts, Expr.used?, mem_exprVariables operand]
  | .binary left op right => by
    simp [exprVariables, Expr.parts, Expr.used?, mem_exprVariables left, mem_exprVariables right,
      or_and_right, exists_or]
  | .call g args => by
    simp [exprVariables, Expr.parts, Expr.used?, mem_exprsVariables args]
  | .convert target e => by
    simp [exprVariables, Expr.parts, Expr.used?, mem_exprVariables e]

theorem mem_exprsVariables {x : Variable} : (es : List Expr) →
    (x ∈ exprsVariables es ↔ ∃ part ∈ Expr.allParts es, part.used? = some x)
  | [] => by simp [exprsVariables, Expr.allParts]
  | e :: es => by
    simp [exprsVariables, Expr.allParts, mem_exprVariables e, mem_exprsVariables es, or_and_right,
      exists_or]

end

/-- A statement that can have code gets slots for exactly the variables that it uses. -/
theorem mem_stmtVariables {s : Stmt} (hs : s.Emittable) {x : Variable} :
    x ∈ stmtVariables s ↔ s.Uses x := by
  cases s with
  | declare y init =>
    simp [stmtVariables, Stmt.Uses, Stmt.declared?, Stmt.exprs, mem_exprVariables, eq_comm, or_comm]
  | expr e => simp [stmtVariables, Stmt.Uses, Stmt.declared?, Stmt.exprs, mem_exprVariables]
  | gotoIf l condition jumpIf =>
    simp [stmtVariables, Stmt.Uses, Stmt.declared?, Stmt.exprs, mem_exprVariables]
  | goto l => simp [stmtVariables, Stmt.Uses, Stmt.declared?, Stmt.exprs]
  | label l => simp [stmtVariables, Stmt.Uses, Stmt.declared?, Stmt.exprs]
  | result ty => simp [stmtVariables, Stmt.Uses, Stmt.declared?, Stmt.exprs]
  | _ => exact absurd hs id

/-! ### Compiling -/

namespace CompileEnds

variable {program : List Stmt} {f : Frame} {outcome : Except InternalError Method}

/-- Once there is code for everything, the jumps decide and then the number of variables. -/
theorem succeeds_iff (h : CompileEnds program f outcome)
    (hslots : ∀ x ∈ program.flatMap stmtVariables, HasSlot f.vars x) :
    (∃ method, outcome = .ok method) ↔ Compilable program ∧ f.vars.length ≤ 2147483648 := by
  have hdecides := decides_programItems hslots
  cases h with
  | noCode hitems =>
    rw [hitems] at hdecides
    cases hdecides with
    | error _ hbad _ =>
      simp only [reduceCtorEq, exists_false, false_iff, not_and]
      intro hcompilable
      exact absurd ⟨hcompilable.statements, hcompilable.expressions⟩ hbad
  | unmarked hitems hu =>
    simp only [reduceCtorEq, exists_false, false_iff, not_and]
    intro hcompilable
    rw [(unmarked?_programItems hitems).2 hcompilable.labels] at hu
    cases hu
  | tooManyVariables _ _ hfits => simp [hfits]
  | finished hitems hu hfits =>
    rw [hitems] at hdecides
    cases hdecides with
    | ok _ hgood =>
      have hcompilable : Compilable program :=
        ⟨hgood.1, hgood.2, (unmarked?_programItems hitems).1 hu⟩
      simp [hcompilable, hfits]

/-- While the code is emitted no flaw is found, as all slots that are asked for are there. -/
theorem flaw_eq (h : CompileEnds program f outcome)
    (hslots : ∀ x ∈ program.flatMap stmtVariables, HasSlot f.vars x) {flaw : Flaw}
    (hflaw : outcome = .error (.invalidProgram flaw)) : flaw = .tooManyVariables := by
  have hdecides := decides_programItems hslots
  cases h with
  | noCode hitems =>
    rw [hitems] at hdecides
    cases hdecides with
    | error _ _ hsound => exact absurd (Except.error.inj hflaw) (hsound flaw)
  | unmarked _ _ => cases hflaw
  | tooManyVariables _ _ _ =>
    cases hflaw
    rfl
  | finished _ _ _ => cases hflaw

end CompileEnds

/-- A program is compiled exactly if it is compilable and does not have too many variables, and the
    only flaw that is found in the method on the way is that it has.  Every variable that its
    statements use has a slot. -/
theorem compile_succeeds_iff (program : List Stmt) :
    ((∃ method, compile program = .ok method) ↔
      Compilable program ∧ (symbolsOf (program.flatMap stmtVariables)).length ≤ 2147483648) ∧
    (∀ flaw, compile program = .error (.invalidProgram flaw) → flaw = .tooManyVariables) ∧
    ∃ f, allocateAll Frame.empty (program.flatMap stmtVariables) = .ok f ∧
      ∀ s ∈ program, s.Emittable → ∀ x, s.Uses x → ∃ slot, f.slot x = .ok slot := by
  rcases exists_compileEnds program with ⟨f, hallocate, hvars, hends⟩
  have hslots : ∀ x ∈ program.flatMap stmtVariables, HasSlot f.vars x := by
    intro x hx
    rw [hvars]
    exact hasSlot_slotted hx
  have hlength : f.vars.length = (symbolsOf (program.flatMap stmtVariables)).length := by
    rw [hvars, length_slotted]
  rw [← hlength]
  refine ⟨hends.succeeds_iff hslots, fun _ => hends.flaw_eq hslots, f, hallocate, ?_⟩
  intro s hs hemittable x hx
  refine exists_slot (hslots x ?_)
  exact List.mem_flatMap.2 ⟨s, hs, (mem_stmtVariables hemittable).2 hx⟩

end Code

end SnippetLang
