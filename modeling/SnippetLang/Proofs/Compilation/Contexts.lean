import SnippetLang.Proofs.Compilation.Blocks
import SnippetLang.Proofs.Compilation.Expressions

/-!
# Expressions in any context

The code of an expression does what the evaluation of the expression does on every machine whose
slots hold the variables of the expression: wherever the code stands in a method, whatever is on the
stack below, and whatever the other slots and the arguments are.  The slots of such a machine are
those that it has, refilled from the bindings where they belong to variables of the expression.
-/

namespace SnippetLang.Code

open Machine (step)
open Typed

/-- The slots that a frame gives to variables hold what the variables are bound to. -/
def SlotsHold (f : Frame) (xs : List Variable) (b : Bindings) (locals : List Cell) : Prop :=
  ∀ x ∈ xs, ∃ slot, f.slot x = .ok slot ∧ locals[slot]? = some (.ofValue (b.read x))

/-! ### Slots and the variables they belong to -/

section

variable {f : Frame} {xs : List Variable} {x y : Variable} {slot : Nat}

theorem slot?_of_slot (h : f.slot x = .ok slot) : f.slot? x = some slot := by
  unfold Frame.slot at h
  cases hx : f.slot? x with
  | none =>
    rw [hx] at h
    cases h
  | some s =>
    rw [hx] at h
    cases h
    rfl

theorem slot_of_slot? (h : f.slot? x = some slot) : f.slot x = .ok slot := by
  rw [Frame.slot, h]

/-- Variables that share a cell share a slot. -/
theorem slot?_congr (h : x.same y = true) : f.slot? x = f.slot? y := by
  have hsame (z : Variable) : z.same x = z.same y := by
    rw [Variable.same_comm z x, Variable.same_comm z y, Variable.same_congr h]
  simp only [Frame.slot?, hsame]

/-- Variables that share a slot share a cell. -/
theorem same_of_slot (hx : f.slot x = .ok slot) (hy : f.slot y = .ok slot) : x.same y = true := by
  obtain ⟨k, rfl, z, hz, hsame⟩ := slotOf_of_slot hx
  obtain ⟨j, hj, z', hz', hsame'⟩ := slotOf_of_slot hy
  obtain rfl : j = k := (Nat.succ.inj hj).symm
  obtain rfl : z = z' := Option.some.inj (hz.symm.trans hz')
  rw [← Variable.same_congr hsame]
  exact hsame'

/-- The variable of a list that a slot belongs to. -/
def owner? (f : Frame) (xs : List Variable) (slot : Nat) : Option Variable :=
  xs.find? fun x => f.slot? x == some slot

theorem slot_of_owner? (h : owner? f xs slot = some y) : y ∈ xs ∧ f.slot y = .ok slot := by
  unfold owner? at h
  have hslot : f.slot? y = some slot := by simpa using List.find?_some h
  exact ⟨List.mem_of_find?_eq_some h, slot_of_slot? hslot⟩

theorem owner?_eq_none_iff : owner? f xs slot = none ↔ ∀ x ∈ xs, f.slot x ≠ .ok slot := by
  simp only [owner?, List.find?_eq_none, beq_iff_eq]
  exact forall₂_congr fun x _ => not_congr ⟨slot_of_slot?, slot?_of_slot⟩

/-- The slot of a variable of a list belongs to one that shares its cell. -/
theorem exists_owner? (hx : x ∈ xs) (h : f.slot x = .ok slot) :
    ∃ y, owner? f xs slot = some y ∧ y.same x = true := by
  cases howner : owner? f xs slot with
  | none => exact absurd h (owner?_eq_none_iff.1 howner x hx)
  | some y => exact ⟨y, rfl, same_of_slot (slot_of_owner? howner).2 h⟩

end

/-! ### Slots that are refilled -/

/-- Local slots of which those of some variables hold what the variables are bound to, and the
    others what they held. -/
def refilled (f : Frame) (xs : List Variable) (locals : List Cell) (b : Bindings) : List Cell :=
  locals.mapIdx fun slot c => (owner? f xs slot).elim c fun x => .ofValue (b.read x)

section

variable {f : Frame} {xs : List Variable} {locals : List Cell} {b b' : Bindings} {x : Variable}
  {slot : Nat}

theorem getElem?_refilled (b : Bindings) (slot : Nat) : (refilled f xs locals b)[slot]? =
    locals[slot]?.map fun c => (owner? f xs slot).elim c fun x => .ofValue (b.read x) :=
  List.getElem?_mapIdx

/-- Slots that belong to none of the variables stay as they are. -/
theorem getElem?_refilled_of_forall (h : ∀ x ∈ xs, f.slot x ≠ .ok slot) :
    (refilled f xs locals b)[slot]? = locals[slot]? := by
  rw [getElem?_refilled, owner?_eq_none_iff.2 h]
  exact Option.map_id_apply

/-- The slot of one of the variables holds what the variable is bound to. -/
theorem getElem?_refilled_of_mem (hx : x ∈ xs) (h : f.slot x = .ok slot)
    (hlength : slot < locals.length) :
    (refilled f xs locals b)[slot]? = some (.ofValue (b.read x)) := by
  obtain ⟨y, howner, hsame⟩ := exists_owner? hx h
  rw [getElem?_refilled, howner, List.getElem?_eq_getElem hlength, Option.map_some,
    Option.elim_some, read_congr hsame]

/-- Slots that hold the variables are refilled with what they hold. -/
theorem refilled_eq (h : SlotsHold f xs b locals) : refilled f xs locals b = locals := by
  apply List.ext_getElem?
  intro slot
  cases howner : owner? f xs slot with
  | none => exact getElem?_refilled_of_forall (owner?_eq_none_iff.1 howner)
  | some x =>
    obtain ⟨hx, hslot⟩ := slot_of_owner? howner
    obtain ⟨slot', hslot', hcell⟩ := h x hx
    obtain rfl : slot = slot' := Except.ok.inj (hslot.symm.trans hslot')
    rw [getElem?_refilled_of_mem hx hslot (List.getElem?_eq_some_iff.1 hcell).1, hcell]

theorem slotsHold_refilled (h : SlotsHold f xs b locals) (b' : Bindings) :
    SlotsHold f xs b' (refilled f xs locals b') := by
  intro x hx
  obtain ⟨slot, hslot, hcell⟩ := h x hx
  exact ⟨slot, hslot, getElem?_refilled_of_mem hx hslot (List.getElem?_eq_some_iff.1 hcell).1⟩

/-- Writing the slot of one of the variables is setting the variable. -/
theorem set_refilled (hx : x ∈ xs) (h : f.slot x = .ok slot) (v : Value) :
    (refilled f xs locals b).set slot (.ofValue v) = refilled f xs locals (b.set x v) := by
  apply List.ext_getElem?
  intro j
  rw [List.getElem?_set, refilled, List.length_mapIdx, ← refilled]
  split
  · next hj =>
    subst hj
    split
    · next hlength =>
      rw [getElem?_refilled_of_mem hx h hlength, Bindings.read_set, if_pos (Variable.same_self x)]
    · next hlength =>
      rw [getElem?_refilled, List.getElem?_eq_none (Nat.not_lt.1 hlength), Option.map_none]
  · next hne =>
    rw [getElem?_refilled, getElem?_refilled]
    cases howner : owner? f xs j with
    | none => rfl
    | some y =>
      have hnot : ¬ x.same y = true := by
        intro hsame
        have hslot := slot?_of_slot (slot_of_owner? howner).2
        rw [← slot?_congr hsame, slot?_of_slot h] at hslot
        exact hne (Option.some.inj hslot)
      simp only [Option.elim_some, Bindings.read_set, if_neg hnot]

end

/-- Where the code of an expression is executed on a machine with slots for the variables of the
    expression. -/
def Machine.setting (m : Machine) (f : Frame) (e : Expr) (method : Method) : Setting :=
  ⟨method, refilled f (exprVariables e) m.locals, m.arguments, m.lastElement⟩

section

variable {f : Frame} {e : Expr} {m : Machine} {σ : Store} {method : Method}

theorem keepsAll_setting (h : SlotsHold f (exprVariables e) σ.bindings m.locals) :
    (m.setting f e method).KeepsAll f (exprVariables e) := by
  intro x hx slot hslot
  obtain ⟨slot', hslot', hcell⟩ := h x hx
  obtain rfl : slot = slot' := Except.ok.inj (hslot.symm.trans hslot')
  exact ⟨fun _ => getElem?_refilled_of_mem hx hslot (List.getElem?_eq_some_iff.1 hcell).1,
    fun _ => set_refilled hx hslot⟩

theorem machine_setting (hconsole : m.console = σ.console)
    (h : SlotsHold f (exprVariables e) σ.bindings m.locals) :
    (m.setting f e method).machine m.index m.stack σ = m := by
  simp only [Setting.machine, Machine.setting, refilled_eq h, ← hconsole]

/-- A well-typed expression has code when its variables have slots. -/
theorem exists_code (he : e.WellTyped) (h : SlotsHold f (exprVariables e) σ.bindings m.locals) :
    ∃ code, exprCode f e = .ok code := by
  have hslots : ∀ x ∈ exprVariables e, HasSlot f.vars x := by
    intro x hx
    obtain ⟨slot, hslot, -⟩ := h x hx
    obtain ⟨k, -, y, hy, hsame⟩ := slotOf_of_slot hslot
    exact ⟨y, List.mem_of_getElem? hy, hsame⟩
  exact ⟨_, (exprCode_eq he hslots).1⟩

end

/-- A well-typed expression whose variables are in the slots of a machine has code, and wherever the
    machine stands at the code, it does what the evaluation of the expression does.  It runs through
    the code, adds the value to its stack, has the new bindings in the slots and changes no others;
    or it stops inside the code in the same error.  In both cases it leaves the same console. -/
theorem exprCode_executes (f : Frame) {e : Expr} (he : e.WellTyped) {σ : Store}
    (hσ : σ.bindings.Typed) {m : Machine} (hconsole : m.console = σ.console)
    (hslots : SlotsHold f (exprVariables e) σ.bindings m.locals) :
    ∃ code, exprCode f e = .ok code ∧
      ∀ method : Method, Placed method.instructions m.index code →
        (∀ v τ, e.eval σ = .ok v τ →
          ∃ locals,
            Steps (step method) code.length m
              { m with
                index := m.index + code.length
                stack := if e.ty = .void then m.stack else .ofValue v :: m.stack
                locals := locals
                console := τ.console } ∧
            SlotsHold f (exprVariables e) τ.bindings locals ∧
            ∀ slot, (∀ x ∈ exprVariables e, f.slot x ≠ .ok slot) →
              locals[slot]? = m.locals[slot]?) ∧
        ∀ error τ, e.eval σ = .error error τ →
          ∃ k m' m'', k < code.length ∧ Steps (step method) k m m' ∧
            step method m' = .finished (.error error m'') ∧ m''.console = τ.console := by
  obtain ⟨code, hcode⟩ := exists_code he hslots
  refine ⟨code, hcode, fun method hplaced => ?_⟩
  have htyped : σ.Typed := ⟨hσ, False.elim⟩
  have hcomputes : Computes (m.setting f e method) (pushed · m.stack) code.length m.index m.stack σ
      (e.eval σ) := computes_eval e he (keepsAll_setting hslots) hcode hplaced htyped
  have hsafe := eval_safe e he htyped
  have hmachine : (m.setting f e method).machine m.index m.stack σ = m :=
    machine_setting hconsole hslots
  constructor
  · intro v τ heval
    obtain ⟨hty, -⟩ := hsafe.of_ok heval
    rw [heval] at hcomputes
    cases hcomputes with
    | ok hthrough =>
      rw [hmachine] at hthrough
      refine ⟨refilled f (exprVariables e) m.locals τ.bindings, ?_,
        slotsHold_refilled hslots τ.bindings, fun slot => getElem?_refilled_of_forall⟩
      rw [← hty]
      exact hthrough.steps
  · intro error τ heval
    rw [heval] at hcomputes
    cases hcomputes with
    | error hk hends hconsole' =>
      rw [hmachine] at hends
      obtain ⟨m', hthrough, -, hfinal⟩ := hends
      exact ⟨_, m', _, hk, hthrough.steps, hfinal, hconsole'⟩

/-- The code of `(a = a - 1) / int(input())` behind another instruction, above the argument array,
    with `a` in slot 2: it leaves the quotient above the array, and the slots below as they were. -/
theorem exprCode_executes_division :
    let a : Variable := ⟨"a", false, .int⟩
    let difference : Expr :=
      .binary (.read a) (.row .minus .subtraction .int .int) (.literal (.int 1))
    let e : Expr := .binary (.assign a difference) (.row .slash .division .int .int)
      (.convert .int (.call .input []))
    let f : Frame := { Frame.empty with vars := [⟨"s", true, .string⟩, a] }
    let code : List Instr := [.loadLocal 2, .loadInt 1, .sub, .storeLocal 2, .loadLocal 2,
      .call .input, .call .stringToInt, .div]
    let m : Machine :=
      { index := 1
        stack := [.arguments]
        locals := [.null, .boxed .void, .int 7]
        arguments := []
        lastElement := none
        console := Console.start [.text "2"] fun _ => 0 }
    exprCode f e = .ok code ∧
      ∃ locals console, Steps (step ⟨.nop :: code ++ [.ret], []⟩) 8 m
        { m with index := 9, stack := [.int 3, .arguments], locals := locals, console := console } ∧
      locals[1]? = some (.boxed .void) ∧ locals[2]? = some (.int 6) ∧ console.input = [] := by
  intro a difference e f code m
  have he : e.WellTyped :=
    .binary (by decide) rfl rfl
      (.assign (by decide) rfl
        (.binary (by decide) rfl rfl (.read (by decide)) (.literal (by decide))))
      (.convert .stringToInt (.call (by decide) rfl nofun))
  let σ : Store := ⟨Bindings.empty.set a (.int 7), m.console⟩
  have hσ : σ.bindings.Typed := Bindings.typed_empty.set rfl
  have hslots : SlotsHold f (exprVariables e) σ.bindings m.locals := by
    intro x hx
    obtain rfl : x = a := by simpa [e, difference, exprVariables, exprsVariables] using hx
    exact ⟨2, rfl, rfl⟩
  obtain ⟨code', hcode', hexecutes⟩ := exprCode_executes f he hσ (m := m) rfl hslots
  have hcode : exprCode f e = .ok code := rfl
  obtain rfl : code' = code := Except.ok.inj (hcode'.symm.trans hcode)
  let τ : Store := ⟨Bindings.empty.set a (.int 6), Console.start [] fun _ => 0⟩
  have heval : e.eval σ = .ok (.int 3) τ := rfl
  obtain ⟨locals, hsteps, hlocals, hothers⟩ :=
    (hexecutes ⟨.nop :: code ++ [.ret], []⟩ ⟨[.nop], [.ret], rfl, rfl⟩).1 _ _ heval
  obtain ⟨slot, hslot, ha⟩ := hlocals a (by decide)
  obtain rfl : 2 = slot := Except.ok.inj hslot
  refine ⟨hcode, locals, _, hsteps, hothers 1 ?_, ha, rfl⟩
  decide

end SnippetLang.Code
