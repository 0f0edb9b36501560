import SnippetLang.Code.Machine
import SnippetLang.Proofs.Compilation.Instructions
import SnippetLang.Proofs.Running.Steps

/-!
# What instructions can do

What an instruction does to any machine whatsoever, whether or not the cells that it finds are those
that it asks for.  It takes as many cells off the stack as its effect says and puts as many there, it
goes on behind itself or at its target, and it leaves the slots and the arguments alone unless it is
there to write them; or the run ends in an error.  `leads_execute` says all of this once, and the
invariants of runs follow from it without another look at the instructions.
-/

namespace SnippetLang

open InternalError (invalidProgram)

/-- The flaws of a method as such, which do not depend on the types of what is on the stack: it runs
    past its end, names a slot or an argument that is not there, or returns what is no result. -/
inductive Flaw.Structural : Flaw → Prop where
  | ranPast {index : Nat} : Structural (.ranPast index)
  | noLocal {slot : Nat} : Structural (.noLocal slot)
  | noArgument {index : Nat} : Structural (.noArgument index)
  | negativeIndex {n : Int32} : Structural (.negativeIndex n)
  | returnOf {found : Code.Cell} : Structural (.returnOf found)

/-- An error that reports a structural flaw. -/
def RunError.Structural (e : RunError) : Prop :=
  ∃ flaw : Flaw, e = .internal (invalidProgram flaw) ∧ flaw.Structural

theorem RunError.structural_internal_iff {flaw : Flaw} :
    RunError.Structural (.internal (invalidProgram flaw)) ↔ flaw.Structural := by
  constructor
  · rintro ⟨_, ⟨⟩, h⟩
    exact h
  · exact fun h => ⟨flaw, rfl, h⟩

/-- The error of an instruction that finds the stack empty. -/
def RunError.underflow : RunError := .internal (invalidProgram .stackUnderflow)

/-- A routine reports neither a structural flaw nor an empty stack. -/
theorem Routine.invoke_error {r : Routine} {args : List Value} {c c' : Console} {e : RunError}
    (h : r.invoke args c = (.error e, c')) : ¬ e.Structural ∧ e ≠ .underflow := by
  have hflaw (r : Routine) (n : Nat) :
      ¬ RunError.Structural (.internal (invalidProgram (.wrongShape r n))) := by
    rw [RunError.structural_internal_iff]
    exact nofun
  unfold invoke at h
  split at h
  · cases h
  · split at h
    · cases h
    · cases h
      exact ⟨nofun, nofun⟩
  · unfold random at h
    split at h
    · cases h
      exact ⟨nofun, nofun⟩
    · split at h <;> cases h
  · cases h
  · cases h
  · split at h
    · cases h
    · cases h
      exact ⟨nofun, nofun⟩
  · split at h
    · cases h
    · cases h
      exact ⟨nofun, nofun⟩
  · cases h
    exact ⟨hflaw _ _, nofun⟩

namespace Code

namespace Machine

/-! ### Actions and their ends -/

/-- An action ends in a way that is asked for: with something good, or in an error that may occur. -/
inductive Leads {α : Type} (good : α → Machine → Prop) (bad : RunError → Machine → Prop) :
    EStateM.Result RunError Machine α → Prop where
  | ok {a : α} {m : Machine} : good a m → Leads good bad (.ok a m)
  | error {e : RunError} {m : Machine} : bad e m → Leads good bad (.error e m)

namespace Leads

variable {α β : Type} {good good' : α → Machine → Prop} {bad bad' : RunError → Machine → Prop}
  {r : EStateM.Result RunError Machine α} {a : α} {e : RunError} {m : Machine}

theorem of_ok (h : Leads good bad (.ok a m)) : good a m := by
  cases h with
  | ok h => exact h

theorem of_error (h : Leads good bad (.error e m) (α := α)) : bad e m := by
  cases h with
  | error h => exact h

theorem mono (h : Leads good bad r) (hgood : ∀ a m, good a m → good' a m)
    (hbad : ∀ e m, bad e m → bad' e m) : Leads good' bad' r := by
  cases h with
  | ok h => exact .ok (hgood _ _ h)
  | error h => exact .error (hbad _ _ h)

end Leads

/-! ### Taking cells and putting cells -/

/-- A machine after so many cells were taken off its stack and so many put there.  The arguments are
    written only by an action that is risky. -/
structure Moved (risky : Prop) (taken put : Nat) (m m' : Machine) : Prop where
  enough : taken ≤ m.stack.length
  height : m'.stack.length = m.stack.length - taken + put
  index : m'.index = m.index
  locals : m'.locals = m.locals
  arguments : m'.arguments = m.arguments ∨ risky

/-- An error on the way to taking so many cells: the stack is found empty only if there are not as
    many, and a structural flaw is reported only by an action that is risky. -/
structure Broke (risky : Prop) (taken : Nat) (m : Machine) (e : RunError) (m' : Machine) :
    Prop where
  harmless : e.Structural → risky
  underflow : e = .underflow → m.stack.length < taken
  height : m'.stack.length ≤ m.stack.length

/-- Whatever the machine, an action takes so many cells and puts so many, or breaks. -/
def Moves {α : Type} (risky : Prop) (taken put : Nat) (p : Action α) : Prop :=
  ∀ m, Leads (fun _ m' => Moved risky taken put m m') (Broke risky taken m) (p m)

namespace Moves

variable {α β : Type} {risky : Prop} {taken put more : Nat}

protected theorem pure (a : α) : Moves risky 0 0 (pure a) := fun _ =>
  .ok ⟨Nat.zero_le _, rfl, rfl, rfl, .inl rfl⟩

/-- What is taken by two actions, of which the first puts nothing, adds up. -/
protected theorem bind {p : Action α} {f : α → Action β} (hp : Moves risky taken 0 p)
    (hf : ∀ a, Moves risky more put (f a)) : Moves risky (taken + more) put (p >>= f) := by
  intro m
  simp only [bind, EStateM.bind]
  cases hpm : p m with
  | error e m' =>
    obtain ⟨hharmless, hunderflow, hheight⟩ := (hpm ▸ hp m).of_error
    exact .error ⟨hharmless, fun he => Nat.lt_add_right more (hunderflow he), hheight⟩
  | ok a m' =>
    have hfirst := (hpm ▸ hp m).of_ok
    have henough := hfirst.enough
    have hlength : m'.stack.length = m.stack.length - taken := hfirst.height
    refine (hf a m').mono (fun b m'' h => ?_) (fun e m'' h => ?_)
    · have henough' := h.enough
      have hheight := h.height
      constructor
      · omega
      · omega
      · exact h.index.trans hfirst.index
      · exact h.locals.trans hfirst.locals
      · rcases hfirst.arguments with heq | hrisky
        · exact heq ▸ h.arguments
        · exact .inr hrisky
    · have hheight := h.height
      refine ⟨h.harmless, fun he => ?_, by omega⟩
      have := h.underflow he
      omega

/-- An action that takes nothing, behind one that puts nothing. -/
theorem andPut {p : Action α} {f : α → Action β} (hp : Moves risky taken 0 p)
    (hf : ∀ a, Moves risky 0 put (f a)) : Moves risky taken put (p >>= f) := hp.bind hf

theorem andReturn {p : Action α} (hp : Moves risky taken put p) (b : β) :
    Moves risky taken put (do let _ ← p; pure b) := by
  intro m
  simp only [bind, EStateM.bind]
  cases hpm : p m with
  | error e m' => exact .error (hpm ▸ hp m).of_error
  | ok a m' => exact .ok (hpm ▸ hp m).of_ok

theorem error {e : RunError} (hharmless : e.Structural → risky) (hunderflow : e ≠ .underflow) :
    Moves risky taken put (throw e : Action α) := fun _ =>
  .error ⟨hharmless, fun he => absurd he hunderflow, Nat.le_refl _⟩

/-- Ending the run with a flaw other than an empty stack. -/
theorem fail {flaw : Flaw} (hharmless : flaw.Structural → risky) (h : flaw ≠ .stackUnderflow) :
    Moves risky taken put (fail flaw : Action α) := by
  refine .error (fun hstructural => hharmless (RunError.structural_internal_iff.1 hstructural)) ?_
  intro heq
  cases heq
  exact h rfl

theorem get : Moves risky 0 0 (get : Action Machine) := fun _ =>
  .ok ⟨Nat.zero_le _, rfl, rfl, rfl, .inl rfl⟩

theorem push (c : Cell) : Moves risky 0 1 (push c) := fun _ =>
  .ok ⟨Nat.zero_le _, rfl, rfl, rfl, .inl rfl⟩

theorem pop : Moves risky 1 0 pop := by
  rintro ⟨index, stack, locals, arguments, element, console⟩
  cases stack with
  | nil =>
    refine .error ⟨fun h => ?_, fun _ => Nat.zero_lt_one, Nat.le_refl _⟩
    cases RunError.structural_internal_iff.1 h
  | cons c rest => exact .ok ⟨Nat.succ_pos _, rfl, rfl, rfl, .inl rfl⟩

theorem popInt : Moves risky 1 0 popInt := by
  refine .andPut .pop fun c => ?_
  cases c <;> first | exact .pure _ | exact .fail nofun nofun

theorem popString : Moves risky 1 0 popString := by
  refine .andPut .pop fun c => ?_
  cases c <;> first | exact .pure _ | exact .fail nofun nofun

theorem popIndex : Moves True 1 0 popIndex := by
  refine .andPut .popInt fun n => ?_
  split
  · exact .fail (fun _ => trivial) nofun
  · exact .pure _

theorem popArguments : Moves risky 1 0 popArguments := by
  refine .andPut .pop fun c => ?_
  cases c <;> first | exact .pure _ | exact .fail nofun nofun

theorem popValue (ty : Ty) : Moves risky 1 0 (popValue ty) := by
  refine .andPut .pop fun c => ?_
  unfold valueOf
  cases c.toValue? ty with
  | some v => exact .pure v
  | none => exact .fail nofun nofun

theorem popValues : (tys : List Ty) → Moves risky tys.length 0 (popValues tys)
  | [] => .pure []
  | ty :: rest => by
    show Moves risky (rest.length + 1) 0 _
    exact .bind (popValues rest) fun _ => .andPut (.popValue ty) fun _ => .pure _

theorem onInts (f : Int32 → Int32 → Int32) : Moves risky 2 1 (onInts f) := by
  show Moves risky (1 + 1) 1 _
  exact .bind .popInt fun _ => .andPut .popInt fun _ => .push _

theorem divide : Moves risky 2 1 divide := by
  show Moves risky (1 + 1) 1 _
  refine .bind .popInt fun right => .andPut .popInt fun left => ?_
  split
  · exact .error nofun nofun
  · exact .push _

theorem unbox (vars : List Variable) (ty : Ty) : Moves risky 1 1 (unbox vars ty) := by
  refine .andPut .pop fun c => ?_
  cases c with
  | boxed v =>
    dsimp only
    split
    · exact .push _
    · exact .andPut .get fun _ => .error nofun nofun
  | _ => exact .fail nofun nofun

theorem readArgument (index : Nat) : Moves True 0 0 (readArgument index) := by
  refine .andPut .get fun m => ?_
  cases m.arguments[index]? with
  | some v => exact fun _ => .ok ⟨Nat.zero_le _, rfl, rfl, rfl, .inl rfl⟩
  | none => exact .fail (fun _ => trivial) nofun

theorem writeArgument (index : Nat) (v : Value) : Moves True 0 0 (writeArgument index v) := by
  refine .andPut .get fun m => ?_
  split
  · exact fun _ => .ok ⟨Nat.zero_le _, rfl, rfl, rfl, .inr trivial⟩
  · exact .fail (fun _ => trivial) nofun

theorem onConsole (f : Console → Except RunError Value × Console)
    (hf : ∀ c e c', f c = (.error e, c') → ¬ e.Structural ∧ e ≠ .underflow) :
    Moves risky 0 0 (onConsole f) := by
  intro m
  unfold Machine.onConsole
  cases h : f m.console with
  | mk result c =>
    cases result with
    | ok v => exact .ok ⟨Nat.zero_le _, rfl, rfl, rfl, .inl rfl⟩
    | error e =>
      obtain ⟨hharmless, hunderflow⟩ := hf _ e c h
      exact .error ⟨fun he => absurd he hharmless, fun he => absurd he hunderflow, Nat.le_refl _⟩

theorem call (r : Routine) : Moves risky (Instr.call r).effect.1 (Instr.call r).effect.2 (call r) := by
  show Moves risky r.parameters.length (if r.result = .void then 0 else 1) _
  refine .andPut (.popValues r.parameters) fun args => .andPut (.onConsole _ ?_) fun v => ?_
  · exact fun c e c' h => Routine.invoke_error h
  · split
    · exact .pure _
    · exact .push _

end Moves

/-! ### Instructions -/

/-- An action on which a run goes on. -/
def GoesOn (p : Action (Option Value)) : Prop := ∀ m a m', p m = .ok a m' → a = none

namespace GoesOn

variable {α : Type}

protected theorem pure : GoesOn (pure none) := by
  rintro m _ _ ⟨⟩
  rfl

protected theorem bind {p : Action α} {f : α → Action (Option Value)} (hf : ∀ a, GoesOn (f a)) :
    GoesOn (p >>= f) := by
  intro m b m' h
  simp only [bind, EStateM.bind] at h
  cases hpm : p m with
  | ok a m'' =>
    rw [hpm] at h
    exact hf a m'' b m' h
  | error e m'' =>
    rw [hpm] at h
    cases h

end GoesOn

/-- Only a return ends a run with a value. -/
theorem goesOn_execute (vars : List Variable) {i : Instr} (hi : i ≠ .ret) :
    GoesOn (execute vars i) := by
  cases i with
  | nop => exact .pure
  | ret => exact absurd rfl hi
  | loadInt | loadString | loadNull | loadArguments | pop | add | sub | mul | div | and | or | xor |
    compareLess | compareGreater | branch | call | unbox =>
    exact .bind fun _ => .pure
  | loadLocal | storeLocal | box | not | neg => exact .bind fun _ => .bind fun _ => .pure
  | compareEqual | concat => exact .bind fun _ => .bind fun _ => .bind fun _ => .pure
  | branchTrue | branchFalse =>
    refine .bind fun _ => ?_
    split
    · exact .bind fun _ => .pure
    · exact .pure
  | loadElement => exact .bind fun _ => .bind fun _ => .bind fun _ => .bind fun _ => .pure
  | storeElement =>
    refine .bind fun c => ?_
    cases c <;> exact .bind fun _ => .bind fun _ => .bind fun _ => .bind fun _ => .pure

end Machine

/-- An instruction that may report a structural flaw on a machine: one on a slot that is not there,
    one on the arguments, or a return. -/
def Instr.Risky (m : Machine) : Instr → Prop
  | .loadLocal slot | .storeLocal slot => m.locals.length ≤ slot
  | .loadElement | .storeElement | .ret => True
  | _ => False

namespace Machine

/-- What an instruction did to a machine. -/
structure Executed (i : Instr) (m : Machine) (answer : Option Value) (m' : Machine) : Prop where
  enough : i.effect.1 ≤ m.stack.length
  height : m'.stack.length = m.stack.length - i.effect.1 + i.effect.2
  index : m'.index = m.index ∨ i.target? = some m'.index
  locals : m'.locals = m.locals ∨
    ∃ slot c, i = .storeLocal slot ∧ m.stack.head? = some c ∧ m'.locals = m.locals.set slot c
  arguments : m'.arguments = m.arguments ∨ i.Risky m
  answer : answer = none ∨ i = .ret

/-- Whatever the machine, an instruction does what its effect says, or breaks. -/
abbrev Fulfils (vars : List Variable) (i : Instr) (m : Machine) : Prop :=
  Leads (Executed i m) (Broke (i.Risky m) i.effect.1 m) (execute vars i m)

variable {vars : List Variable} {m : Machine} {i : Instr}

theorem fulfils_of_moves (h : Moves (i.Risky m) i.effect.1 i.effect.2 (execute vars i)) :
    Fulfils vars i m := by
  unfold Fulfils
  cases hx : execute vars i m with
  | error e m' => exact .error (hx ▸ h m).of_error
  | ok a m' =>
    have hmoved := (hx ▸ h m).of_ok
    refine .ok ⟨hmoved.enough, hmoved.height, .inl hmoved.index, .inl hmoved.locals,
      hmoved.arguments, ?_⟩
    by_cases hret : i = .ret
    · exact .inr hret
    · exact .inl (goesOn_execute vars hret m a m' hx)

theorem action_bind_of_error {α β : Type} {p : Action α} {f : α → Action β} {e : RunError}
    {m m' : Machine} (h : p m = .error e m') : (p >>= f) m = .error e m' := by
  simp only [bind, EStateM.bind, h]

theorem fulfils_loadLocal (vars : List Variable) (slot : Nat) (m : Machine) :
    Fulfils vars (.loadLocal slot) m := by
  unfold Fulfils
  cases hc : m.locals[slot]? with
  | some c =>
    rw [execute_loadLocal hc]
    exact .ok ⟨Nat.zero_le _, rfl, .inl rfl, .inl rfl, .inl rfl, .inl rfl⟩
  | none =>
    have hread : readLocal slot m = .error (.internal (invalidProgram (.noLocal slot))) m := by
      refine (action_bind_of_ok (get_eq m)).trans ?_
      rw [hc]
      rfl
    have hx : execute vars (.loadLocal slot) m =
        .error (.internal (invalidProgram (.noLocal slot))) m := action_bind_of_error hread
    rw [hx]
    exact .error ⟨fun _ => List.getElem?_eq_none_iff.1 hc, nofun, Nat.le_refl _⟩

theorem fulfils_storeLocal (vars : List Variable) (slot : Nat) (m : Machine) :
    Fulfils vars (.storeLocal slot) m := by
  obtain ⟨index, stack, locals, arguments, element, console⟩ := m
  cases stack with
  | nil =>
    refine .error ⟨fun h => ?_, fun _ => Nat.zero_lt_one, Nat.le_refl _⟩
    cases RunError.structural_internal_iff.1 h
  | cons c rest =>
    unfold Fulfils
    by_cases hslot : slot < locals.length
    · rw [execute_storeLocal hslot rfl]
      exact .ok ⟨Nat.succ_pos _, rfl, .inl rfl, .inr ⟨slot, c, rfl, rfl, rfl⟩, .inl rfl, .inl rfl⟩
    · let m : Machine := ⟨index, rest, locals, arguments, element, console⟩
      have hwrite : writeLocal slot c m = .error (.internal (invalidProgram (.noLocal slot))) m := by
        refine (action_bind_of_ok (get_eq m)).trans ?_
        rw [if_neg hslot]
        rfl
      have hx : execute vars (.storeLocal slot) ⟨index, c :: rest, locals, arguments, element, console⟩
          = .error (.internal (invalidProgram (.noLocal slot))) m :=
        (action_bind_of_ok (pop_eq rfl)).trans (action_bind_of_error hwrite)
      rw [hx]
      exact .error ⟨fun _ => Nat.le_of_not_lt hslot, nofun, Nat.le_succ _⟩

/-- A branch on a condition takes the condition, and goes to its target or on. -/
theorem fulfils_branchIf {target : Nat} (ht : i.target? = some target) (heffect : i.effect = (1, 0))
    (goes : Int32 → Prop) [DecidablePred goes]
    (hx : execute vars i m =
      (popInt >>= fun n => if goes n then (do goto target; pure none) else pure none) m) :
    Fulfils vars i m := by
  unfold Fulfils
  rw [hx, heffect]
  have hpop : Leads (fun _ m' => Moved (i.Risky m) 1 0 m m') (Broke (i.Risky m) 1 m) (popInt m) :=
    Moves.popInt m
  cases hn : popInt m with
  | error e m' =>
    rw [action_bind_of_error hn]
    exact .error (hn ▸ hpop).of_error
  | ok n m' =>
    rw [action_bind_of_ok hn]
    have hmoved := (hn ▸ hpop).of_ok
    dsimp only
    split
    · exact .ok ⟨heffect ▸ hmoved.enough, heffect ▸ hmoved.height, .inr ht, .inl hmoved.locals,
        hmoved.arguments, .inl rfl⟩
    · exact .ok ⟨heffect ▸ hmoved.enough, heffect ▸ hmoved.height, .inl hmoved.index,
        .inl hmoved.locals, hmoved.arguments, .inl rfl⟩

theorem moves_storeElement : Moves True 3 0 (execute vars .storeElement) := by
  have hstore (v : Value) : Moves True 2 0 (do
      let index ← popIndex
      popArguments
      writeArgument index v
      pure (none : Option Value)) := by
    show Moves True (1 + 1) 0 _
    exact .bind .popIndex fun k => .andPut .popArguments fun _ => (Moves.writeArgument k v).andReturn _
  show Moves True (1 + 2) 0 _
  refine .bind .pop fun c => ?_
  cases c with
  | boxed v => exact hstore v
  | null => exact hstore .void
  | _ =>
    show Moves True (0 + 2) 0 _
    exact .bind (p := fail (.storeOf _)) (.fail nofun nofun) hstore

theorem moves_loadElement : Moves True 2 1 (execute vars .loadElement) := by
  show Moves True (1 + 1) 1 _
  exact .bind .popIndex fun _ => .andPut .popArguments fun _ => .andPut (.readArgument _) fun _ =>
    (Moves.push _).andReturn _

theorem moves_ret : Moves True 1 0 (execute vars .ret) := by
  refine .andPut .pop fun c => ?_
  cases c <;> first | exact .pure _ | exact .fail (fun _ => trivial) nofun

/-- What an instruction leads to, on any machine. -/
theorem fulfils (vars : List Variable) (i : Instr) (m : Machine) : Fulfils vars i m := by
  cases i with
  | loadLocal slot => exact fulfils_loadLocal vars slot m
  | storeLocal slot => exact fulfils_storeLocal vars slot m
  | loadElement => exact fulfils_of_moves moves_loadElement
  | storeElement => exact fulfils_of_moves moves_storeElement
  | ret => exact fulfils_of_moves moves_ret
  | branch target => exact .ok ⟨Nat.zero_le _, rfl, .inr rfl, .inl rfl, .inl rfl, .inl rfl⟩
  | branchTrue target => exact fulfils_branchIf rfl rfl (· ≠ 0) rfl
  | branchFalse target => exact fulfils_branchIf rfl rfl (· = 0) rfl
  | nop => exact fulfils_of_moves (.pure _)
  | loadInt | loadString | loadNull | loadArguments =>
    exact fulfils_of_moves ((Moves.push _).andReturn _)
  | pop => exact fulfils_of_moves (Moves.pop.andReturn _)
  | add | sub | mul | and | or | xor | compareLess | compareGreater =>
    exact fulfils_of_moves ((Moves.onInts _).andReturn _)
  | div => exact fulfils_of_moves (Moves.divide.andReturn _)
  | unbox ty => exact fulfils_of_moves ((Moves.unbox vars ty).andReturn _)
  | call r => exact fulfils_of_moves ((Moves.call r).andReturn _)
  | box ty => exact fulfils_of_moves (.andPut (.popValue ty) fun _ => (Moves.push _).andReturn _)
  | not | neg => exact fulfils_of_moves (.andPut .popInt fun _ => (Moves.push _).andReturn _)
  | compareEqual =>
    refine fulfils_of_moves (?_ : Moves _ (1 + 1) 1 _)
    exact .bind .pop fun _ => .andPut .pop fun _ => (Moves.push _).andReturn _
  | concat =>
    refine fulfils_of_moves (?_ : Moves _ (1 + 1) 1 _)
    exact .bind .popString fun _ => .andPut .popString fun _ => (Moves.push _).andReturn _

/-! ### Steps -/

/-- What a step of a machine can be: it stands behind the last instruction, or the instruction it
    stands at is executed, and then the run goes on, returns or breaks. -/
inductive Stepped (method : Method) (m : Machine) : Progress Machine Ending → Prop where
  | ranPast : method.instructions[m.index]? = none →
      Stepped method m (.finished (.error (.internal (invalidProgram (.ranPast m.index))) m))
  | runs {i : Instr} {m' : Machine} : method.instructions[m.index]? = some i →
      Executed i { m with index := m.index + 1 } none m' → Stepped method m (.running m')
  | returns {i : Instr} {v : Value} {m' : Machine} : method.instructions[m.index]? = some i →
      Executed i { m with index := m.index + 1 } (some v) m' →
      Stepped method m (.finished (.ok v m'))
  | breaks {i : Instr} {e : RunError} {m' : Machine} : method.instructions[m.index]? = some i →
      Broke (i.Risky { m with index := m.index + 1 }) i.effect.1 { m with index := m.index + 1 }
        e m' →
      Stepped method m (.finished (.error e m'))

theorem stepped (method : Method) (m : Machine) : Stepped method m (step method m) := by
  unfold step
  cases hi : method.instructions[m.index]? with
  | none => exact .ranPast hi
  | some i =>
    have hfulfils : Fulfils method.vars i { m with index := m.index + 1 } := fulfils ..
    unfold Fulfils at hfulfils
    dsimp only
    generalize execute method.vars i { m with index := m.index + 1 } = r at hfulfils
    cases hfulfils with
    | @ok answer m' hexecuted =>
      cases answer with
      | none => exact .runs hi hexecuted
      | some v => exact .returns hi hexecuted
    | error hbroke => exact .breaks hi hbroke

end Machine

end Code

end SnippetLang
