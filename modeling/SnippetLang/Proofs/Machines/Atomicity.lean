import SnippetLang.Proofs.Machines.Accepted

/-!
# Runs leave all or nothing

A run of any method that was accepted either ends in an error, and then the bindings are what they
were, or brings back a value of its declared type for each of its variables, and touches no other.
The machine may well meet cells of wrong types on the way, but it always stands at an instruction, and
every slot and argument that it asks for is there.

In the code between the opening and the closing this is an invariant of all machines.  The opening and
the closing are straight, so a run that gets to the end of either goes through the whole of it.
-/

namespace SnippetLang.Code

open InternalError (invalidProgram)
open Machine (execute step Fulfils Executed)

/-- A cell that a return accepts. -/
inductive Cell.Returnable : Cell → Prop where
  | boxed {v : Value} : Returnable (.boxed v)
  | null : Returnable .null

/-- An end that does no harm: an error that does not come from the method as such, or a result with
    arguments of the types of the variables. -/
inductive Fine (vars : List Variable) : Machine.Ending → Prop where
  | ok {v : Value} {m : Machine} :
      List.Forall₂ (fun x w => w.ty = x.ty) vars m.arguments → Fine vars (.ok v m)
  | error {e : RunError} {m : Machine} : ¬ e.Structural → Fine vars (.error e m)

/-- However the run from a machine ends, it is fine. -/
def Safe (method : Method) (m : Machine) : Prop :=
  ∀ c, EndsWith (step method) m c → Fine method.vars c

section

variable {method : Method} {m m' : Machine} {e : RunError} {i : Instr}

theorem Safe.of_steps {n : Nat} (h : Steps (step method) n m m') (hm : Safe method m') :
    Safe method m := fun c hc => hm c (h.endsWith_iff.1 hc)

theorem Safe.of_step (h : step method m = .running m') (hm : Safe method m') : Safe method m :=
  hm.of_steps (.single h)

theorem Safe.of_finished {c : Machine.Ending} (h : step method m = .finished c)
    (hc : Fine method.vars c) : Safe method m := fun _ hend =>
  (endsWith_of_finished h).unique hend ▸ hc

theorem not_structural {flaw : Flaw} (h : ¬ flaw.Structural) :
    ¬ RunError.Structural (.internal (invalidProgram flaw)) :=
  fun he => h (RunError.structural_internal_iff.1 he)

end

/-! ### Boxes and their values -/

/-- A value taken out of a cell has the type that it is taken out as. -/
theorem ty_of_toValue? {c : Cell} {ty : Ty} {v : Value} (h : c.toValue? ty = some v) : v.ty = ty := by
  unfold Cell.toValue? at h
  split at h <;> cases h <;> rfl

section

variable {vars : List Variable} {m m' : Machine} {c : Cell} {rest : List Cell} {ty : Ty} {v : Value}

theorem execute_box_some (hm : m.stack = c :: rest) (hc : c.toValue? ty = some v) :
    execute vars (.box ty) m = .ok none { m with stack := .boxed v :: rest } := by
  have hvalue : Machine.popValue ty m = .ok v { m with stack := rest } := by
    refine (action_bind_of_ok (pop_eq hm)).trans ?_
    unfold Machine.valueOf
    rw [hc]
    rfl
  exact action_bind_of_ok hvalue

theorem execute_box_none (hm : m.stack = c :: rest) (hc : c.toValue? ty = none) :
    execute vars (.box ty) m =
      .error (.internal (invalidProgram (.notOfType c ty))) { m with stack := rest } := by
  have hvalue : Machine.popValue ty m =
      .error (.internal (invalidProgram (.notOfType c ty))) { m with stack := rest } := by
    refine (action_bind_of_ok (pop_eq hm)).trans ?_
    unfold Machine.valueOf
    rw [hc]
    rfl
  exact Machine.action_bind_of_error hvalue

theorem execute_unbox_error (hm : m.stack = .boxed v :: rest) (hv : v.ty ≠ ty) :
    ∃ name, execute vars (.unbox ty) m =
      .error (.invalidCast name ty v.ty) { m with stack := rest } := by
  have hunbox : Machine.unbox vars ty m = .error (.invalidCast
      ((m.lastElement.bind fun index => vars[index]?).elim "" (·.name)) ty v.ty)
      { m with stack := rest } := by
    refine (action_bind_of_ok (pop_eq hm)).trans ?_
    dsimp only
    rw [if_neg hv]
    rfl
  exact ⟨_, Machine.action_bind_of_error hunbox⟩

/-- Behind an instruction that boxes, a cell that a return accepts is on top. -/
theorem returnable_of_boxing {b : Instr} {a : Option Value} (hb : b.Boxing)
    (h : execute vars b m = .ok a m') : ∃ c, m'.stack.head? = some c ∧ c.Returnable := by
  cases hb with
  | loadNull =>
    cases h
    exact ⟨_, rfl, .null⟩
  | @box ty =>
    cases hm : m.stack with
    | nil =>
      have hfulfils : Fulfils vars (.box ty) m := Machine.fulfils vars (.box ty) m
      unfold Fulfils at hfulfils
      rw [h] at hfulfils
      have henough := hfulfils.of_ok.enough
      rw [hm] at henough
      exact absurd henough (Nat.not_succ_le_zero 0)
    | cons c rest =>
      cases hc : c.toValue? ty with
      | none => cases (execute_box_none hm hc).symm.trans h
      | some v =>
        cases (execute_box_some hm hc).symm.trans h
        exact ⟨_, rfl, .boxed⟩

end

/-! ### In the code -/

/-- A machine inside the code of a method, or at the end of it. -/
structure Inside (method : Method) (code : List Instr) (m : Machine) : Prop where
  index : ∃ k, m.index = (opening method.vars).length + k ∧ k ≤ code.length ∧
    (code[k]? = some (.storeLocal resultSlot) → ∃ c, m.stack.head? = some c ∧ c.Returnable)
  locals : m.locals.length = method.vars.length + 1
  result : ∃ c, m.locals[resultSlot]? = some c ∧ c.Returnable
  arguments : m.arguments.length = method.vars.length

section

variable {method : Method} {code : List Instr} {m m' : Machine} {i : Instr} {k : Nat}

theorem Shape.getElem? (hs : Shape method code) (hk : k < code.length) :
    method.instructions[(opening method.vars).length + k]? = code[k]? := by
  rw [hs.instructions, List.append_assoc, List.getElem?_append_right (Nat.le_add_right _ _),
    Nat.add_sub_cancel_left, List.getElem?_append_left hk]

theorem Instr.Calm.not_risky {n : Nat} (h : i.Calm n) (hn : n < m.locals.length) :
    ¬ i.Risky m := by
  cases i with
  | loadLocal slot | storeLocal slot => exact Nat.not_le.2 (Nat.lt_of_le_of_lt h.2 hn)
  | loadElement | storeElement | ret => cases h
  | _ => exact id

/-- What stands in the code is not risky. -/
theorem Shape.not_risky (hs : Shape method code) (hi : code[k]? = some i)
    (hlocals : m.locals.length = method.vars.length + 1) : ¬ i.Risky m := by
  cases ht : i.target? with
  | some t => cases i <;> first | exact id | cases ht
  | none =>
    rcases hs.calm k i hi ht with hcalm | rfl
    · exact hcalm.not_risky (by omega)
    · exact Nat.not_le.2 (by rw [hlocals]; exact Nat.succ_pos _)

/-- Before a result is stored, a cell that a return accepts is on top. -/
theorem Inside.ready (h : Inside method code m)
    (hindex : m.index = (opening method.vars).length + k)
    (hk : code[k]? = some (.storeLocal resultSlot)) :
    ∃ c, m.stack.head? = some c ∧ c.Returnable := by
  obtain ⟨j, hj, -, hready⟩ := h.index
  obtain rfl : j = k := by omega
  exact hready hk

/-- An instruction of the code that was executed leaves the machine inside the code. -/
theorem Inside.of_executed (hs : Shape method code) (h : Inside method code m)
    (hindex : m.index = (opening method.vars).length + k) (hk : k < code.length)
    (hi : code[k]? = some i)
    (hx : execute method.vars i { m with index := m.index + 1 } = .ok none m')
    (hexecuted : Executed i { m with index := m.index + 1 } none m') : Inside method code m' := by
  constructor
  · rcases hexecuted.index with hnext | htarget
    · refine ⟨k + 1, by rw [hnext, hindex, Nat.add_assoc], hk, fun hstore => ?_⟩
      obtain ⟨b, hb, hboxing⟩ := hs.boxed k hstore
      obtain rfl := Option.some.inj (hi.symm.trans hb)
      exact returnable_of_boxing hboxing hx
    · obtain ⟨j, hj, hle, hne⟩ := hs.lands k i m'.index hi htarget
      exact ⟨j, hj, hle, fun hstore => absurd hstore hne⟩
  · rcases hexecuted.locals with heq | ⟨slot, c, -, -, heq⟩
    · rw [heq]
      exact h.locals
    · rw [heq, List.length_set]
      exact h.locals
  · rcases hexecuted.locals with heq | ⟨slot, c, rfl, htop, heq⟩
    · rw [heq]
      exact h.result
    · rw [heq]
      by_cases hslot : slot = resultSlot
      · subst hslot
        obtain ⟨d, hd, hreturnable⟩ := h.ready hindex hi
        obtain rfl := Option.some.inj (htop.symm.trans hd)
        exact ⟨c, List.getElem?_set_self (by rw [h.locals]; exact Nat.succ_pos _), hreturnable⟩
      · rw [List.getElem?_set_ne hslot]
        exact h.result
  · rw [hexecuted.arguments.resolve_right (hs.not_risky hi h.locals)]
    exact h.arguments

/-- The machine inside the code goes on inside it, or the run ends in an error. -/
theorem Inside.step (hs : Shape method code) (h : Inside method code m)
    (hindex : m.index = (opening method.vars).length + k) (hk : k < code.length) :
    (∃ m', step method m = .running m' ∧ Inside method code m') ∨
      ∃ e m', step method m = .finished (.error e m') ∧ ¬ e.Structural := by
  obtain ⟨i, hi⟩ : ∃ i, code[k]? = some i := ⟨_, List.getElem?_eq_getElem hk⟩
  have hstands : method.instructions[m.index]? = some i := by
    rw [hindex, hs.getElem? hk, hi]
  have hrisky : ¬ i.Risky { m with index := m.index + 1 } := hs.not_risky hi h.locals
  have hfulfils : Fulfils method.vars i { m with index := m.index + 1 } := Machine.fulfils ..
  unfold Fulfils at hfulfils
  cases hx : execute method.vars i { m with index := m.index + 1 } with
  | error e m' =>
    rw [hx] at hfulfils
    exact .inr ⟨e, m', step_of_execute_error hstands hx,
      fun he => hrisky (hfulfils.of_error.harmless he)⟩
  | ok a m' =>
    rw [hx] at hfulfils
    have hexecuted := hfulfils.of_ok
    have hret : i ≠ .ret := by
      rintro rfl
      exact hrisky trivial
    obtain rfl : a = none := hexecuted.answer.resolve_right hret
    exact .inl ⟨m', step_of_execute hstands hx, h.of_executed hs hindex hk hi hx hexecuted⟩

/-- A run from inside the code is fine, if runs from its end are. -/
theorem Inside.safe (hs : Shape method code) (h : Inside method code m)
    (hend : ∀ m, Inside method code m →
      m.index = (opening method.vars).length + code.length → Safe method m) : Safe method m := by
  rintro c ⟨n, hn⟩
  induction n generalizing m with
  | zero => simp [runFor] at hn
  | succ n ih =>
    obtain ⟨k, hindex, hk, -⟩ := h.index
    rcases Nat.lt_or_eq_of_le hk with hlt | rfl
    · rcases h.step hs hindex hlt with ⟨m', hstep, hinside⟩ | ⟨e, m', hstep, he⟩
      · simp only [runFor, hstep] at hn
        exact ih hinside hn
      · simp only [runFor, hstep] at hn
        obtain rfl := Option.some.inj hn
        exact .error he
    · exact hend m h hindex c ⟨n + 1, hn⟩

end

/-! ### The opening -/

section

variable {method : Method} {k i : Nat} {x : Variable} {locals : List Cell} {args : List Value}
  {element : Option Nat} {console : Console}

theorem safe_fetch (hp : Placed method.instructions i (fetch k x)) (hk : k < 2147483648)
    (hargs : k < args.length) (hlocals : k + 1 < locals.length)
    (hnext : ∀ c element, Safe method ⟨i + 5, [], locals.set (k + 1) c, args, element, console⟩) :
    Safe method ⟨i, [], locals, args, element, console⟩ := by
  have hread : args[k]? = some args[k] := List.getElem?_eq_getElem hargs
  by_cases hty : args[k].ty = x.ty
  · have hthrough : Through (step method) (fun _ => True) 5 _ _ :=
      through_fetch element console hp hk hread hty hlocals fun _ _ => trivial
    exact (hnext _ _).of_steps hthrough.steps
  · unfold fetch at hp
    refine .of_step (step_of_execute hp.head rfl) ?_
    refine .of_step (step_of_execute hp.tail.head rfl) ?_
    refine .of_step (step_of_execute hp.tail.tail.head (execute_loadElement hk rfl hread)) ?_
    obtain ⟨name, hunbox⟩ := execute_unbox_error
      (m := ⟨i + 4, [.boxed args[k]], locals, args, some k, console⟩) rfl hty
    exact .of_finished (step_of_execute_error hp.tail.tail.tail.head hunbox) (.error nofun)

/-- The opening leaves the result slot empty and puts something into every other slot. -/
theorem safe_prologue (rest : List Variable) (hfits : k + rest.length ≤ 2147483648)
    (hargs : args.length = k + rest.length) (hlocals : locals.length = k + rest.length + 1)
    (hresult : locals[resultSlot]? = some .null)
    (hp : Placed method.instructions i (Frame.prologue k rest))
    (hnext : ∀ (locals' : List Cell) (element : Option Nat), locals'.length = locals.length →
      locals'[resultSlot]? = some .null →
      Safe method ⟨i + 5 * rest.length, [], locals', args, element, console⟩) :
    Safe method ⟨i, [], locals, args, element, console⟩ := by
  induction rest generalizing k i locals element with
  | nil => exact hnext locals element rfl hresult
  | cons x rest ih =>
    rw [List.length_cons] at hfits hargs hlocals
    rw [prologue_cons] at hp
    refine safe_fetch hp.left (by omega) (by omega) (by omega) fun c element => ?_
    refine ih (by omega) (by omega) (by rw [List.length_set]; omega) ?_ hp.right ?_
    · have hne : k + 1 ≠ resultSlot := Nat.succ_ne_zero k
      rw [List.getElem?_set_ne hne]
      exact hresult
    · intro locals' element' hlength hnull
      rw [List.length_set] at hlength
      have hsafe := hnext locals' element' hlength hnull
      rw [List.length_cons, Nat.mul_succ, Nat.add_comm _ 5, ← Nat.add_assoc] at hsafe
      exact hsafe

end

/-! ### The closing -/

section

variable {method : Method} {k i : Nat} {x : Variable} {stack : List Cell} {locals : List Cell}
  {args : List Value} {element : Option Nat} {console : Console}

theorem safe_putBack (hp : Placed method.instructions i (putBack k x)) (hk : k < 2147483648)
    (hargs : k < args.length) (hlocals : k + 1 < locals.length)
    (hnext : ∀ v : Value, v.ty = x.ty →
      Safe method ⟨i + 5, stack, locals, args.set k v, element, console⟩) :
    Safe method ⟨i, stack, locals, args, element, console⟩ := by
  have hread : locals[k + 1]? = some locals[k + 1] := List.getElem?_eq_getElem hlocals
  unfold putBack at hp
  refine .of_step (step_of_execute hp.head rfl) ?_
  refine .of_step (step_of_execute hp.tail.head rfl) ?_
  refine .of_step (step_of_execute hp.tail.tail.head (execute_loadLocal hread)) ?_
  cases hv : locals[k + 1].toValue? x.ty with
  | none =>
    refine .of_finished (step_of_execute_error hp.tail.tail.tail.head (execute_box_none rfl hv)) ?_
    exact .error (not_structural nofun)
  | some v =>
    refine .of_step (step_of_execute hp.tail.tail.tail.head (execute_box_some rfl hv)) ?_
    refine .of_step
      (step_of_execute hp.tail.tail.tail.tail.head (execute_storeElement hk rfl hargs)) ?_
    exact hnext v (ty_of_toValue? hv)

/-- The last two instructions end the run, with arguments that are as they should be. -/
theorem safe_return (hp : Placed method.instructions i [.loadLocal resultSlot, .ret])
    (hresult : ∃ c, locals[resultSlot]? = some c ∧ c.Returnable)
    (hargs : List.Forall₂ (fun x w => w.ty = x.ty) method.vars args) :
    Safe method ⟨i, stack, locals, args, element, console⟩ := by
  obtain ⟨c, hc, hreturnable⟩ := hresult
  refine .of_step (step_of_execute hp.head (execute_loadLocal hc)) ?_
  cases hreturnable with
  | boxed => exact .of_finished (step_of_execute_return hp.tail.head rfl) (.ok hargs)
  | null => exact .of_finished (step_of_execute_return hp.tail.head rfl) (.ok hargs)

/-- The closing brings a value of its type back for every variable that is left. -/
theorem safe_epilogue (before rest : List Variable) (hvars : method.vars = before ++ rest)
    (done old : List Value) (hdone : List.Forall₂ (fun x w => w.ty = x.ty) before done)
    (hold : old.length = rest.length) (hfits : method.vars.length ≤ 2147483648)
    (hlocals : locals.length = method.vars.length + 1)
    (hresult : ∃ c, locals[resultSlot]? = some c ∧ c.Returnable)
    (hp : Placed method.instructions i
      (Frame.epilogue before.length rest ++ [.loadLocal resultSlot, .ret])) :
    Safe method ⟨i, stack, locals, done ++ old, element, console⟩ := by
  induction rest generalizing before i done old with
  | nil =>
    obtain rfl := List.eq_nil_of_length_eq_zero hold
    rw [List.append_nil] at hvars ⊢
    exact safe_return hp hresult (hvars ▸ hdone)
  | cons x rest ih =>
    obtain ⟨v, old, rfl⟩ := List.exists_cons_of_length_eq_add_one hold
    have hlength : method.vars.length = before.length + rest.length + 1 := by
      simp [hvars, Nat.add_assoc]
    have hsame : done.length = before.length := hdone.length_eq.symm
    rw [epilogue_cons, List.append_assoc] at hp
    refine safe_putBack hp.left (by omega) (by simp [hsame]) (by omega) fun w hw => ?_
    have hset : (done ++ v :: old).set before.length w = (done ++ [w]) ++ old := by
      simp [← hsame]
    rw [hset]
    refine ih (before ++ [x]) (by simp [hvars]) (done ++ [w]) old ?_ (by simpa using hold) ?_
    · exact List.rel_append hdone (.cons hw .nil)
    · simpa [putBack] using hp.right

end

/-! ### Whole runs -/

/-- Every run of a method of the shape is fine. -/
theorem Shape.safe_start {method : Method} {code : List Instr} (hs : Shape method code) (σ : Store) :
    Safe method (method.start σ) := by
  have hwhole := Placed.whole method.instructions
  rw [hs.instructions] at hwhole
  have hclosing : ∀ m, Inside method code m →
      m.index = (opening method.vars).length + code.length → Safe method m := by
    rintro ⟨index, stack, locals, args, element, console⟩ h rfl
    have hp := hwhole.right
    rw [Nat.zero_add, List.length_append, ← hs.instructions] at hp
    exact safe_epilogue [] method.vars rfl [] args .nil h.arguments hs.fits h.locals h.result hp
  refine safe_prologue method.vars (by rw [Nat.zero_add]; exact hs.fits) ?_ ?_ rfl
    (hs.instructions ▸ hwhole.left.left) fun locals element hlength hnull => ?_
  · simp
  · simp [Method.locals]
  · refine Inside.safe hs ⟨⟨0, ?_, Nat.zero_le _, fun h => absurd h hs.first⟩, ?_, ?_, ?_⟩ hclosing
    · rw [opening, length_prologue]
      simp
    · rw [hlength]
      simp [Method.locals]
    · exact ⟨_, hnull, .null⟩
    · simp

theorem find?_setAll_of_forall {vars : List Variable} (args : List Value) (b : Bindings)
    {y : Variable} (hy : ∀ x ∈ vars, x.same y = false) :
    (b.setAll (vars.zip args)).find? y = b.find? y := by
  induction vars generalizing args b with
  | nil => rfl
  | cons x rest ih =>
    obtain ⟨hx, hrest⟩ := List.forall_mem_cons.1 hy
    cases args with
    | nil => rfl
    | cons v args =>
      refine (ih args (b.set x v) hrest).trans ?_
      rw [Bindings.find?_set, hx]
      rfl

/-- A variable that shares a slot is bound to a value of its type after the slots were brought
    back. -/
theorem find?_setAll_of_hasSlot {vars : List Variable} {args : List Value}
    (h : List.Forall₂ (fun x w => w.ty = x.ty) vars args) (b : Bindings) {y : Variable}
    (hy : HasSlot vars y) : ∃ w, (b.setAll (vars.zip args)).find? y = some w ∧ w.ty = y.ty := by
  induction h generalizing b with
  | nil => exact absurd hy (fun ⟨_, hx, _⟩ => nomatch hx)
  | @cons x v rest args hv _ ih =>
    by_cases hrest : HasSlot rest y
    · exact ih (b.set x v) hrest
    · -- no later variable shares the cell, so the value of the first one stays
      have hothers : ∀ z ∈ rest, z.same y = false := by
        intro z hz
        exact Bool.eq_false_iff.2 fun hsame => hrest ⟨z, hz, hsame⟩
      obtain ⟨z, hz, hsame⟩ := hy
      rcases List.mem_cons.1 hz with rfl | hz
      · refine ⟨v, ?_, hv.trans (Variable.same_iff.1 hsame).2⟩
        refine (find?_setAll_of_forall args (b.set z v) hothers).trans ?_
        rw [Bindings.find?_set, if_pos hsame]
      · exact absurd ⟨z, hz, hsame⟩ hrest

/-- All or nothing: an error leaves the bindings as they were, and a value comes with a binding to a
    value of its type for every variable of the method and with the old binding for every other one.
    In no case is the method as such to blame. -/
inductive Atomic (vars : List Variable) (σ : Store) : Outcome → Prop where
  | ok {v : Value} {τ : Store} :
      (∀ x ∈ vars, ∃ w, τ.bindings.find? x = some w ∧ w.ty = x.ty) →
      (∀ y, (∀ x ∈ vars, x.same y = false) → τ.bindings.find? y = σ.bindings.find? y) →
      Atomic vars σ (.ok v τ)
  | error {e : RunError} {τ : Store} :
      τ.bindings = σ.bindings → ¬ e.Structural → Atomic vars σ (.error e τ)

/-- Runs of whatever was accepted are atomic. -/
theorem compile_atomic {program : List Typed.Stmt} {method : Method}
    (h : compile program = .ok method) (σ : Store) {n : Nat} {o : Outcome}
    (ho : method.run σ n = some o) : Atomic method.vars σ o := by
  obtain ⟨f, items, hassembled⟩ := exists_assembled h
  obtain ⟨code, hs⟩ := hassembled.shape
  obtain ⟨c, hc, rfl⟩ := Option.map_eq_some_iff.1 ho
  cases hs.safe_start σ c ⟨n, hc⟩ with
  | error he => exact .error rfl he
  | ok hargs =>
    refine .ok (fun x hx => ?_) fun y hy => ?_
    · exact find?_setAll_of_hasSlot hargs σ.bindings ⟨x, hx, x.same_self⟩
    · exact find?_setAll_of_forall _ σ.bindings hy

/-- The method of an ill-typed program, which stores a number in a truth value, brings back a truth
    value and leaves the binding of another variable alone, though that holds a text for a number. -/
theorem compile_atomic_mistyped :
    let x : Variable := ⟨"x", false, .bool⟩
    let y : Variable := ⟨"x", false, .int⟩
    let program : List Typed.Stmt := [.declare x (.literal (.int 5)), .expr (.literal (.int 7)),
      .result .int]
    let σ : Store := ⟨Bindings.empty.set y (.string "five"), Console.start [] fun _ => 0⟩
    ∃ method τ w, compile program = .ok method ∧ method.run σ 40 = some (.ok (.int 7) τ) ∧
      τ.bindings.find? x = some w ∧ w.ty = .bool ∧ τ.bindings.find? y = some (.string "five") := by
  intro x y program σ
  let method := methodOf [x] [.instr (.loadInt 5), .instr (.storeLocal 1), .instr (.loadInt 7),
    .instr (.box .int), .instr (.storeLocal 0)]
  have hcompile : compile program = .ok method := by decide +kernel
  have hvalue : (method.run σ 40).map Outcome.value? = some (some (.int 7)) := by decide +kernel
  obtain ⟨o, ho, hvalue⟩ := Option.map_eq_some_iff.1 hvalue
  cases compile_atomic hcompile σ ho with
  | error _ _ => cases hvalue
  | ok hvars hothers =>
    cases hvalue
    obtain ⟨w, hw, hty⟩ := hvars x (List.mem_singleton_self x)
    exact ⟨method, _, w, hcompile, ho, hw, hty, hothers y (by decide)⟩

end SnippetLang.Code
