import SnippetLang.Proofs.Compilation.Symbols
import SnippetLang.Proofs.Machines.Accepted

/-!
# Slots in the order of their use

The pass that gives slots goes through a program before any code is emitted.  It meets the variables
in the order in which the code will access them, so the slots that the code names are, each where it
is named first, the numbers from 1 on, and none is left over.
-/

namespace SnippetLang

namespace Typed

mutual

/-- The variables that the evaluation of an expression accesses, in order.  An assignment sets its
    variable and reads it back. -/
def Expr.accesses : Expr → List Variable
  | .error => []
  | .literal _ => []
  | .read x => [x]
  | .assign x value => value.accesses ++ [x, x]
  | .unary _ operand => operand.accesses
  | .binary left _ right => left.accesses ++ right.accesses
  | .call _ args => Expr.allAccesses args
  | .convert _ e => e.accesses

/-- The same for several expressions, one after the other. -/
def Expr.allAccesses : List Expr → List Variable
  | [] => []
  | e :: es => e.accesses ++ Expr.allAccesses es

end

/-- The variables that a statement of a flat program accesses, in order. -/
def Stmt.accesses : Stmt → List Variable
  | .declare x init => init.accesses ++ [x]
  | .expr e => e.accesses
  | .gotoIf _ condition _ => condition.accesses
  | _ => []

end Typed

namespace Code

open Typed

/-- The slot of a variable that an instruction names. -/
def Instr.named? : Instr → Option Nat
  | .loadLocal slot | .storeLocal slot => if slot = resultSlot then none else some slot
  | _ => none

/-- The slots of variables that code names, in order. -/
def namedSlots (code : List Instr) : List Nat := code.filterMap Instr.named?

/-- The place of a variable among those with slots, counted from 1. -/
def placeOf (vars : List Variable) (x : Variable) : Nat :=
  (vars.map Variable.symbol).idxOf x.symbol + 1

/-! ### Slots that code names -/

theorem namedSlots_append (p q : List Instr) : namedSlots (p ++ q) = namedSlots p ++ namedSlots q :=
  List.filterMap_append

theorem namedSlots_unaryCode (kind : UnaryKind) : namedSlots (unaryCode kind) = [] := by
  cases kind <;> rfl

theorem namedSlots_binaryCode (kind : BinaryKind) : namedSlots (binaryCode kind) = [] := by
  cases kind <;> rfl

theorem namedSlots_resultCode (ty : Ty) : namedSlots (resultCode ty) = [] := by
  unfold resultCode
  split <;> rfl

theorem Instr.named?_retarget (g : Nat → Nat) (i : Instr) : (i.retarget g).named? = i.named? := by
  cases i <;> rfl

/-- Jumps name no slots, wherever they go. -/
theorem namedSlots_resolvedCode (target : JumpLabel → Nat) (items : List Item) :
    namedSlots (resolvedCode target items) = namedSlots (rawCode items) := by
  induction items with
  | nil => rfl
  | cons item rest ih =>
    have hitem : namedSlots (item.resolved target) = namedSlots item.raw := by
      cases item with
      | instr i => rfl
      | jump i l => simp [Item.resolved, Item.raw, namedSlots, List.filterMap_cons, Instr.named?_retarget]
      | mark l => rfl
    simp only [resolvedCode, rawCode, List.flatMap_cons, namedSlots_append] at ih ⊢
    rw [hitem, ih]

section

variable {f : Frame} {x : Variable} {slot : Nat}

/-- The slot that a frame answers for a variable is its place. -/
theorem slot_eq_placeOf (hd : Distinct f.vars) (h : f.slot x = .ok slot) :
    slot = placeOf f.vars x := by
  rcases (slot_eq_ok_iff hd).1 h with ⟨k, rfl, hk⟩
  rcases List.getElem?_eq_some_iff.1 hk with ⟨hlt, hget⟩
  rw [placeOf, ← hget, hd.nodup_symbols.idxOf_getElem k hlt]

theorem named?_loadLocal (hd : Distinct f.vars) (h : f.slot x = .ok slot) :
    (Instr.loadLocal slot).named? = some (placeOf f.vars x) := by
  rw [slot_eq_placeOf hd h]
  rfl

theorem named?_storeLocal (hd : Distinct f.vars) (h : f.slot x = .ok slot) :
    (Instr.storeLocal slot).named? = some (placeOf f.vars x) := by
  rw [slot_eq_placeOf hd h]
  rfl

mutual

/-- The code of an expression names the slots of the variables that it accesses. -/
theorem namedSlots_exprCode (hd : Distinct f.vars) : (e : Expr) → ∀ {code : List Instr},
    exprCode f e = .ok code → namedSlots code = e.accesses.map (placeOf f.vars)
  | .error, _, h => nomatch h
  | .literal v, _, h => by
    cases v <;> cases h <;> rfl
  | .read x, _, h => by
    rcases bind_eq_ok h with ⟨slot, hslot, h⟩
    cases h
    simp [namedSlots, named?_loadLocal hd hslot, Expr.accesses]
  | .assign x value, _, h => by
    rcases bind_eq_ok h with ⟨code, hcode, h⟩
    rcases bind_eq_ok h with ⟨slot, hslot, h⟩
    cases h
    rw [namedSlots_append, namedSlots_exprCode hd value hcode]
    simp [namedSlots, named?_loadLocal hd hslot, named?_storeLocal hd hslot, Expr.accesses]
  | .unary op operand, _, h => by
    rcases bind_eq_ok h with ⟨code, hcode, h⟩
    cases h
    rw [namedSlots_append, namedSlots_exprCode hd operand hcode, namedSlots_unaryCode]
    simp [Expr.accesses]
  | .binary left op right, _, h => by
    rcases bind_eq_ok h with ⟨first, hfirst, h⟩
    rcases bind_eq_ok h with ⟨second, hsecond, h⟩
    cases h
    rw [namedSlots_append, namedSlots_append, namedSlots_exprCode hd left hfirst,
      namedSlots_exprCode hd right hsecond, namedSlots_binaryCode]
    simp [Expr.accesses]
  | .call g args, _, h => by
    rcases bind_eq_ok h with ⟨r, -, h⟩
    rcases bind_eq_ok h with ⟨code, hcode, h⟩
    cases h
    rw [namedSlots_append, namedSlots_exprsCode hd args hcode]
    simp [namedSlots, Instr.named?, Expr.accesses]
  | .convert target e, _, h => by
    rcases bind_eq_ok h with ⟨r, -, h⟩
    rcases bind_eq_ok h with ⟨code, hcode, h⟩
    cases h
    rw [namedSlots_append, namedSlots_exprCode hd e hcode]
    simp [namedSlots, Instr.named?, Expr.accesses]

theorem namedSlots_exprsCode (hd : Distinct f.vars) : (es : List Expr) → ∀ {code : List Instr},
    exprsCode f es = .ok code → namedSlots code = (Expr.allAccesses es).map (placeOf f.vars)
  | [], _, h => by
    cases h
    rfl
  | e :: es, _, h => by
    rcases bind_eq_ok h with ⟨first, hfirst, h⟩
    rcases bind_eq_ok h with ⟨rest, hrest, h⟩
    cases h
    rw [namedSlots_append, namedSlots_exprCode hd e hfirst, namedSlots_exprsCode hd es hrest]
    simp [Expr.allAccesses]

end

/-- The items of a statement name the slots of the variables that it accesses. -/
theorem namedSlots_stmtItems (hd : Distinct f.vars) {kept : Bool} {s : Stmt} {items : List Item}
    (h : stmtItems f kept s = .ok items) :
    namedSlots (rawCode items) = s.accesses.map (placeOf f.vars) := by
  cases stmtItems_cases h with
  | declare hcode hslot =>
    rw [rawCode_map_instr, namedSlots_append, namedSlots_exprCode hd _ hcode]
    simp [namedSlots, named?_storeLocal hd hslot, Stmt.accesses]
  | value hcode =>
    rw [rawCode_map_instr, namedSlots_exprCode hd _ hcode]
    rfl
  | dropped hcode =>
    rw [rawCode_map_instr, namedSlots_append, namedSlots_exprCode hd _ hcode]
    exact List.append_nil _
  | @gotoIf _ _ jumpIf _ hcode =>
    rw [rawCode_append, rawCode_map_instr, namedSlots_append, namedSlots_exprCode hd _ hcode]
    cases jumpIf <;> exact List.append_nil _
  | goto => rfl
  | label => rfl
  | result =>
    rw [rawCode_map_instr, namedSlots_resultCode]
    rfl

/-- The items of a program name the slots of the variables that it accesses. -/
theorem namedSlots_programItems (hd : Distinct f.vars) {program : List Stmt} {items : List Item}
    (h : programItems f program = .ok items) :
    namedSlots (rawCode items) = (program.flatMap Stmt.accesses).map (placeOf f.vars) := by
  induction program generalizing items with
  | nil =>
    cases h
    rfl
  | cons s rest ih =>
    rcases bind_eq_ok h with ⟨first, hfirst, h⟩
    rcases bind_eq_ok h with ⟨others, hothers, h⟩
    cases h
    rw [rawCode_append, namedSlots_append, namedSlots_stmtItems hd hfirst, ih hothers,
      List.flatMap_cons, List.map_append]

end

/-! ### Slots that are given -/

mutual

/-- Reading back what was assigned needs no other slot. -/
theorem foldl_accesses : (e : Expr) → (vars : List Variable) →
    e.accesses.foldl withSlot vars = (exprVariables e).foldl withSlot vars
  | .error, _ => rfl
  | .literal _, _ => rfl
  | .read _, _ => rfl
  | .assign x value, vars => by
    simp only [Expr.accesses, exprVariables, List.foldl_append, foldl_accesses value]
    exact withSlot_of_hasSlot (hasSlot_withSlot _ x)
  | .unary _ operand, vars => foldl_accesses operand vars
  | .binary left _ right, vars => by
    simp only [Expr.accesses, exprVariables, List.foldl_append, foldl_accesses left,
      foldl_accesses right]
  | .call _ args, vars => foldl_allAccesses args vars
  | .convert _ e, vars => foldl_accesses e vars

theorem foldl_allAccesses : (es : List Expr) → (vars : List Variable) →
    (Expr.allAccesses es).foldl withSlot vars = (exprsVariables es).foldl withSlot vars
  | [], _ => rfl
  | e :: es, vars => by
    simp only [Expr.allAccesses, exprsVariables, List.foldl_append, foldl_accesses e,
      foldl_allAccesses es]

end

theorem foldl_stmtAccesses (s : Stmt) (vars : List Variable) :
    s.accesses.foldl withSlot vars = (stmtVariables s).foldl withSlot vars := by
  cases s with
  | declare x init =>
    simp only [Stmt.accesses, stmtVariables, List.foldl_append, foldl_accesses init]
  | expr e => exact foldl_accesses e vars
  | gotoIf l condition jumpIf => exact foldl_accesses condition vars
  | _ => rfl

/-- The variables get their slots as they are accessed. -/
theorem slotted_accesses (program : List Stmt) :
    slotted (program.flatMap Stmt.accesses) = slotted (program.flatMap stmtVariables) := by
  suffices h : ∀ vars, (program.flatMap Stmt.accesses).foldl withSlot vars =
      (program.flatMap stmtVariables).foldl withSlot vars from h []
  induction program with
  | nil => exact fun _ => rfl
  | cons s rest ih =>
    intro vars
    simp only [List.flatMap_cons, List.foldl_append, foldl_stmtAccesses, ih]

/-! ### First uses -/

/-- The places of symbols among themselves are the numbers from 1 on. -/
theorem map_idxOf_of_nodup {symbols : List (String × Ty)} (h : symbols.Nodup) :
    symbols.map (fun s => symbols.idxOf s + 1) = List.range' 1 symbols.length := by
  refine List.ext_getElem (by simp) ?_
  intro k hk hk'
  rw [List.length_map] at hk
  simp [h.idxOf_getElem k hk, Nat.add_comm]

/-- The places of variables, each where it comes first, are the numbers from 1 on. -/
theorem eraseDups_map_placeOf {vars xs : List Variable} (h : vars.map Variable.symbol = symbolsOf xs) :
    (xs.map (placeOf vars)).eraseDups = List.range' 1 vars.length := by
  have hplaces : xs.map (placeOf vars) =
      (xs.map Variable.symbol).map fun s => (symbolsOf xs).idxOf s + 1 := by
    rw [List.map_map, ← h]
    rfl
  have hapart : ∀ s ∈ xs.map Variable.symbol, ∀ t ∈ xs.map Variable.symbol,
      (symbolsOf xs).idxOf s + 1 = (symbolsOf xs).idxOf t + 1 → s = t := by
    intro s hs t ht hst
    exact (List.idxOf_inj (List.mem_eraseDups.2 hs)).1 (Nat.succ.inj hst)
  have hlength : vars.length = (symbolsOf xs).length := by
    rw [← h, List.length_map]
  rw [hplaces, eraseDups_map hapart, ← symbolsOf, map_idxOf_of_nodup (nodup_symbolsOf xs), hlength]

/-- The code of a method names the slots of the variables that the program accesses one by one.
    Each where it comes first, these are the numbers from 1 up to the number of variables, and the
    variables are those that are accessed, in this order. -/
theorem slots_follow_accesses {program : List Stmt} {method : Method}
    (h : compile program = .ok method) :
    ∃ body, method.instructions = opening method.vars ++ body ++ closing method.vars ∧
      namedSlots body = (program.flatMap Stmt.accesses).map (placeOf method.vars) ∧
      (namedSlots body).eraseDups = List.range' 1 method.vars.length ∧
      method.vars.map Variable.symbol = symbolsOf (program.flatMap Stmt.accesses) := by
  rcases exists_compileEnds program with ⟨f, -, hvars, hends⟩
  rw [h] at hends
  cases hends with
  | @finished items hitems _ _ =>
    have hsymbols : f.vars.map Variable.symbol = symbolsOf (program.flatMap Stmt.accesses) := by
      rw [hvars, ← slotted_accesses, map_symbol_slotted]
    have hnamed : namedSlots (rawCode items) =
        (program.flatMap Stmt.accesses).map (placeOf f.vars) :=
      namedSlots_programItems (hvars ▸ distinct_slotted _) hitems
    refine ⟨_, rfl, ?_, ?_, hsymbols⟩
    · rw [namedSlots_resolvedCode]
      exact hnamed
    · rw [namedSlots_resolvedCode, hnamed]
      exact eraseDups_map_placeOf hsymbols

/-- In `z = (x = 1) + y` the variable that is written first gets its slot last. -/
theorem slots_follow_accesses_sum :
    let x : Variable := ⟨"x", false, .int⟩
    let y : Variable := ⟨"y", false, .int⟩
    let z : Variable := ⟨"z", false, .int⟩
    let program : List Stmt :=
      [.expr (.assign z (.binary (.assign x (.literal (.int 1))) .intAddition (.read y)))]
    ∃ method, compile program = .ok method ∧ method.vars = [x, y, z] ∧
      ∃ body, method.instructions = opening [x, y, z] ++ body ++ closing [x, y, z] ∧
        namedSlots body = [1, 1, 2, 3, 3] ∧ (namedSlots body).eraseDups = [1, 2, 3] := by
  intro x y z program
  let method := methodOf [x, y, z] [.instr (.loadInt 1), .instr (.storeLocal 1),
    .instr (.loadLocal 1), .instr (.loadLocal 2), .instr .add, .instr (.storeLocal 3),
    .instr (.loadLocal 3), .instr .pop]
  have hcompile : compile program = .ok method := by decide +kernel
  rcases slots_follow_accesses hcompile with ⟨body, hbody, hnamed, hfirst, -⟩
  exact ⟨method, hcompile, rfl, body, hbody, hnamed.trans (by decide), hfirst⟩

end Code

end SnippetLang
