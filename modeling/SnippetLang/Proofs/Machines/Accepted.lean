import SnippetLang.Proofs.Compilation.Arguments
import SnippetLang.Proofs.Compilation.Expressions
import SnippetLang.Proofs.Machines.Effects

/-!
# What is accepted

Whatever flat program compiles, well-typed or not, the method has a certain shape.  Between its
opening and its closing only certain instructions stand: they name slots that are there, the result
slot is written only behind an instruction that leaves a cell fit for it, and branches go to places in
between or to the closing, but never between the two instructions that make up a result.
-/

namespace SnippetLang.Code

open Typed

/-! ### The items of any program -/

/-- An instruction that the code of an expression may have when so many variables have slots: no
    branch, none on the arguments, no return, and no slot but those of the variables. -/
def Instr.Calm (n : Nat) : Instr → Prop
  | loadLocal slot | storeLocal slot => 0 < slot ∧ slot ≤ n
  | branch _ | branchTrue _ | branchFalse _ | loadElement | storeElement | ret => False
  | _ => True

/-- An instruction that leaves a cell behind that a return accepts. -/
inductive Instr.Boxing : Instr → Prop where
  | loadNull : Boxing .loadNull
  | box {ty : Ty} : Boxing (.box ty)

/-- Items that are emitted for statements: calm instructions, jumps and marks, and results. -/
inductive Emitted (n : Nat) : List Item → Prop where
  | nil : Emitted n []
  | instr {i : Instr} {rest : List Item} : i.Calm n → Emitted n rest → Emitted n (.instr i :: rest)
  | jump {i : Instr} {l : JumpLabel} {rest : List Item} :
      i.target? ≠ none → Emitted n rest → Emitted n (.jump i l :: rest)
  | mark {l : JumpLabel} {rest : List Item} : Emitted n rest → Emitted n (.mark l :: rest)
  | result {i : Instr} {rest : List Item} :
      i.Boxing → Emitted n rest → Emitted n (.instr i :: .instr (.storeLocal resultSlot) :: rest)

theorem Instr.Calm.target? {n : Nat} {i : Instr} (h : i.Calm n) : i.target? = none := by
  cases i <;> first | rfl | cases h

theorem Instr.Boxing.target? {i : Instr} (h : i.Boxing) : i.target? = none := by
  cases h <;> rfl

namespace Emitted

variable {n : Nat} {items more : List Item}

theorem append (h : Emitted n items) (hmore : Emitted n more) : Emitted n (items ++ more) := by
  induction h with
  | nil => exact hmore
  | instr hi _ ih => exact .instr hi ih
  | jump hi _ ih => exact .jump hi ih
  | mark _ ih => exact .mark ih
  | result hi _ ih => exact .result hi ih

theorem ofCalm {code : List Instr} (h : ∀ i ∈ code, i.Calm n) : Emitted n (code.map .instr) := by
  induction code with
  | nil => exact .nil
  | cons i rest ih =>
    obtain ⟨hi, hrest⟩ := List.forall_mem_cons.1 h
    exact .instr hi (ih hrest)

theorem sensible (h : Emitted n items) : ∀ item ∈ items, item.Sensible := by
  induction h with
  | nil => exact nofun
  | instr hi _ ih => exact List.forall_mem_cons.2 ⟨hi.target?, ih⟩
  | jump hi _ ih => exact List.forall_mem_cons.2 ⟨hi, ih⟩
  | mark _ ih => exact List.forall_mem_cons.2 ⟨trivial, ih⟩
  | result hi _ ih => exact List.forall_mem_cons.2 ⟨hi.target?, List.forall_mem_cons.2 ⟨rfl, ih⟩⟩

end Emitted

section

variable {f : Frame}

theorem calm_unaryCode (n : Nat) (kind : UnaryKind) : ∀ i ∈ unaryCode kind, i.Calm n := by
  cases kind <;> simp [unaryCode, testZero, Instr.Calm]

theorem calm_binaryCode (n : Nat) (kind : BinaryKind) : ∀ i ∈ binaryCode kind, i.Calm n := by
  cases kind <;> simp [binaryCode, testZero, Instr.Calm]

/-- A slot that a frame answers is one of those that it has. -/
theorem slot_bounds {x : Variable} {slot : Nat} (h : f.slot x = .ok slot) :
    0 < slot ∧ slot ≤ f.vars.length := by
  obtain ⟨k, rfl, hk⟩ := slotOf_of_slot h
  exact ⟨Nat.succ_pos k, hk.lt_length⟩

mutual

/-- The code of any expression that has one is calm. -/
theorem calm_exprCode : (e : Expr) → ∀ {code : List Instr}, exprCode f e = .ok code →
    ∀ i ∈ code, i.Calm f.vars.length
  | .error, _, h => nomatch h
  | .literal v, _, h => by
    cases v <;> cases h <;> exact List.forall_mem_singleton.2 trivial
  | .read x, _, h => by
    obtain ⟨slot, hslot, h⟩ := bind_eq_ok h
    cases h
    exact List.forall_mem_singleton.2 (slot_bounds hslot)
  | .assign x value, _, h => by
    obtain ⟨code, hcode, h⟩ := bind_eq_ok h
    obtain ⟨slot, hslot, h⟩ := bind_eq_ok h
    cases h
    have hbounds := slot_bounds hslot
    exact List.forall_mem_append.2 ⟨calm_exprCode value hcode,
      List.forall_mem_cons.2 ⟨hbounds, List.forall_mem_singleton.2 hbounds⟩⟩
  | .unary op operand, _, h => by
    obtain ⟨code, hcode, h⟩ := bind_eq_ok h
    cases h
    exact List.forall_mem_append.2 ⟨calm_exprCode operand hcode, calm_unaryCode _ _⟩
  | .binary left op right, _, h => by
    obtain ⟨first, hfirst, h⟩ := bind_eq_ok h
    obtain ⟨second, hsecond, h⟩ := bind_eq_ok h
    cases h
    exact List.forall_mem_append.2 ⟨List.forall_mem_append.2
      ⟨calm_exprCode left hfirst, calm_exprCode right hsecond⟩, calm_binaryCode _ _⟩
  | .call g args, _, h => by
    obtain ⟨r, _, h⟩ := bind_eq_ok h
    obtain ⟨code, hcode, h⟩ := bind_eq_ok h
    cases h
    exact List.forall_mem_append.2
      ⟨calm_exprsCode args hcode, List.forall_mem_singleton.2 trivial⟩
  | .convert target e, _, h => by
    obtain ⟨r, _, h⟩ := bind_eq_ok h
    obtain ⟨code, hcode, h⟩ := bind_eq_ok h
    cases h
    exact List.forall_mem_append.2 ⟨calm_exprCode e hcode, List.forall_mem_singleton.2 trivial⟩

theorem calm_exprsCode : (es : List Expr) → ∀ {code : List Instr}, exprsCode f es = .ok code →
    ∀ i ∈ code, i.Calm f.vars.length
  | [], _, h => by
    cases h
    exact nofun
  | e :: es, _, h => by
    obtain ⟨first, hfirst, h⟩ := bind_eq_ok h
    obtain ⟨rest, hrest, h⟩ := bind_eq_ok h
    cases h
    exact List.forall_mem_append.2 ⟨calm_exprCode e hfirst, calm_exprsCode es hrest⟩

end

theorem emitted_resultCode (n : Nat) (ty : Ty) : Emitted n ((resultCode ty).map .instr) := by
  refine .result ?_ .nil
  split
  · exact .loadNull
  · exact .box

/-- The items of the statements that have some, made from the code of their expressions. -/
inductive StmtItems (f : Frame) (kept : Bool) : Stmt → List Item → Prop where
  | declare {x : Variable} {init : Expr} {code : List Instr} {slot : Nat} :
      exprCode f init = .ok code → f.slot x = .ok slot →
      StmtItems f kept (.declare x init) ((code ++ [Instr.storeLocal slot]).map .instr)
  | value {e : Expr} {code : List Instr} :
      exprCode f e = .ok code → (kept || e.ty = .void) = true →
      StmtItems f kept (.expr e) (code.map .instr)
  | dropped {e : Expr} {code : List Instr} :
      exprCode f e = .ok code → ¬ (kept || e.ty = .void) = true →
      StmtItems f kept (.expr e) ((code ++ [Instr.pop]).map .instr)
  | goto {l : JumpLabel} : StmtItems f kept (.goto l) [.jump (.branch 0) l]
  | gotoIf {l : JumpLabel} {condition : Expr} {jumpIf : Bool} {code : List Instr} :
      exprCode f condition = .ok code →
      StmtItems f kept (.gotoIf l condition jumpIf)
        (code.map .instr ++ [.jump (if jumpIf then .branchTrue 0 else .branchFalse 0) l])
  | label {l : JumpLabel} : StmtItems f kept (.label l) [.mark l]
  | result {ty : Ty} : StmtItems f kept (.result ty) ((resultCode ty).map .instr)

theorem stmtItems_cases {kept : Bool} {s : Stmt} {items : List Item}
    (h : stmtItems f kept s = .ok items) : StmtItems f kept s items := by
  cases s with
  | declare x init =>
    rcases bind_eq_ok h with ⟨code, hcode, h⟩
    rcases bind_eq_ok h with ⟨slot, hslot, h⟩
    cases h
    exact .declare hcode hslot
  | expr e =>
    rcases bind_eq_ok h with ⟨code, hcode, h⟩
    cases h
    split
    · next hkept => exact .value hcode hkept
    · next hdropped => exact .dropped hcode hdropped
  | gotoIf l condition jumpIf =>
    rcases bind_eq_ok h with ⟨code, hcode, h⟩
    cases h
    exact .gotoIf hcode
  | goto l =>
    cases h
    exact .goto
  | label l =>
    cases h
    exact .label
  | result ty =>
    cases h
    exact .result
  | _ => cases h

theorem emitted_stmtItems {kept : Bool} {s : Stmt} {items : List Item}
    (h : stmtItems f kept s = .ok items) : Emitted f.vars.length items := by
  cases stmtItems_cases h with
  | declare hcode hslot =>
    exact .ofCalm (List.forall_mem_append.2
      ⟨calm_exprCode _ hcode, List.forall_mem_singleton.2 (slot_bounds hslot)⟩)
  | value hcode => exact .ofCalm (calm_exprCode _ hcode)
  | dropped hcode =>
    exact .ofCalm (List.forall_mem_append.2
      ⟨calm_exprCode _ hcode, List.forall_mem_singleton.2 trivial⟩)
  | goto => exact .jump nofun .nil
  | @gotoIf _ _ jumpIf _ hcode =>
    refine (Emitted.ofCalm (calm_exprCode _ hcode)).append (.jump ?_ .nil)
    cases jumpIf <;> exact nofun
  | label => exact .mark .nil
  | result => exact emitted_resultCode _ _

theorem emitted_programItems {program : List Stmt} {items : List Item}
    (h : programItems f program = .ok items) : Emitted f.vars.length items := by
  induction program generalizing items with
  | nil =>
    cases h
    exact .nil
  | cons s rest ih =>
    obtain ⟨first, hfirst, h⟩ := bind_eq_ok h
    obtain ⟨others, hothers, h⟩ := bind_eq_ok h
    cases h
    exact (emitted_stmtItems hfirst).append (ih hothers)

end

/-! ### Methods that are put together -/

/-- How the compilation of a program ends, whose variables have slots in a frame. -/
inductive CompileEnds (program : List Stmt) (f : Frame) : Except InternalError Method → Prop where
  | noCode {e : InternalError} :
      programItems f program = .error e → CompileEnds program f (.error e)
  | unmarked {items : List Item} {l : JumpLabel} :
      programItems f program = .ok items → unmarked? items = some l →
      CompileEnds program f (.error (.unmarkedLabel l))
  | tooManyVariables {items : List Item} :
      programItems f program = .ok items → unmarked? items = none → ¬ f.vars.length ≤ 2147483648 →
      CompileEnds program f (.error (.invalidProgram .tooManyVariables))
  | finished {items : List Item} :
      programItems f program = .ok items → unmarked? items = none → f.vars.length ≤ 2147483648 →
      CompileEnds program f (.ok (methodOf f.vars items))

/-- All variables get slots, and compiling goes on from there. -/
theorem exists_compileEnds (program : List Stmt) :
    ∃ f : Frame, allocateAll Frame.empty (program.flatMap stmtVariables) = .ok f ∧
      f.vars = slotted (program.flatMap stmtVariables) ∧ CompileEnds program f (compile program) := by
  rcases exists_allocated program with ⟨f, hallocate, hvars, hempty⟩
  refine ⟨f, hallocate, hvars, ?_⟩
  simp only [compile, hallocate, bind, Except.bind]
  cases hitems : programItems f program with
  | error e => exact .noCode hitems
  | ok items =>
    have hsensible := (emitted_programItems hitems).sensible
    rcases hempty.putAll hsensible with ⟨f', hput, hcontains, hvars'⟩
    rw [List.nil_append] at hcontains
    simp only [hput]
    cases hu : unmarked? items with
    | some l =>
      rw [hcontains.finalize_eq, hu]
      exact .unmarked hitems hu
    | none =>
      rw [hcontains.finalize hsensible (unmarked?_eq_none_iff.1 hu), hvars']
      by_cases hfits : f.vars.length ≤ 2147483648
      · rw [if_pos hfits]
        exact .finished hitems hu hfits
      · rw [if_neg hfits]
        exact .tooManyVariables hitems hu hfits

/-- A program was compiled to a method by way of its items. -/
structure Assembled (program : List Stmt) (f : Frame) (items : List Item) (method : Method) :
    Prop where
  emitted : programItems f program = .ok items
  marked : ∀ i l, .jump i l ∈ items → markedAt? l items ≠ none
  fits : f.vars.length ≤ 2147483648
  method : method = methodOf f.vars items

theorem exists_assembled {program : List Stmt} {method : Method} (h : compile program = .ok method) :
    ∃ f items, Assembled program f items method := by
  rcases exists_compileEnds program with ⟨f, -, -, hends⟩
  rw [h] at hends
  cases hends with
  | finished hitems hu hfits => exact ⟨f, _, hitems, unmarked?_eq_none_iff.1 hu, hfits, rfl⟩

/-! ### Where instructions stand -/

/-- Why an instruction stands at an index of the code of items: it is calm, it is a branch to the
    label of a jump, or it stores a result behind an instruction that boxes it. -/
inductive Stands (n : Nat) (items : List Item) (target : JumpLabel → Nat) (k : Nat) (i : Instr) :
    Prop where
  | calm : i.Calm n → Stands n items target k i
  | jump {j : Instr} {l : JumpLabel} :
      .jump j l ∈ items → i.target? = some (target l) → Stands n items target k i
  | result {j : Nat} {b : Instr} :
      i = .storeLocal resultSlot → k = j + 1 → (resolvedCode target items)[j]? = some b →
      b.Boxing → Stands n items target k i

theorem Stands.behind {n : Nat} {items : List Item} {target : JumpLabel → Nat} {k : Nat} {i : Instr}
    (h : Stands n items target k i) (before : List Item) :
    Stands n (before ++ items) target (k + (resolvedCode target before).length) i := by
  cases h with
  | calm hi => exact .calm hi
  | jump hl ht => exact .jump (List.mem_append_right _ hl) ht
  | @result j b hi hk hb hboxing =>
    have hshift : (resolvedCode target (before ++ items))[j + (resolvedCode target before).length]? =
        some b := by
      rw [resolvedCode_append, List.getElem?_append_right (Nat.le_add_left _ _), Nat.add_sub_cancel]
      exact hb
    exact .result hi (by omega) hshift hboxing

namespace Emitted

variable {n : Nat} {items : List Item}

theorem stands (h : Emitted n items) (target : JumpLabel → Nat) {k : Nat} {i : Instr}
    (hi : (resolvedCode target items)[k]? = some i) : Stands n items target k i := by
  induction h generalizing k with
  | nil => cases hi
  | @instr i' rest hcalm _ ih =>
    cases k with
    | zero =>
      cases hi
      exact .calm hcalm
    | succ k => exact (ih hi).behind [.instr i']
  | @jump i' l rest htarget _ ih =>
    cases k with
    | zero =>
      cases hi
      refine .jump (List.mem_cons_self ..) ?_
      cases i' <;> first | rfl | exact absurd rfl htarget
    | succ k => exact (ih hi).behind [.jump i' l]
  | @mark l rest _ ih => exact (ih hi).behind [.mark l]
  | @result b rest hboxing _ ih =>
    match k, hi with
    | 0, rfl =>
      refine .calm ?_
      cases hboxing <;> trivial
    | 1, rfl => exact .result rfl rfl rfl hboxing
    | k + 2, hi => exact (ih hi).behind [.instr b, .instr (.storeLocal resultSlot)]

/-- Items do not begin with an instruction that stores a result. -/
theorem head_ne (h : Emitted n items) (target : JumpLabel → Nat) :
    (resolvedCode target items)[0]? ≠ some (.storeLocal resultSlot) := by
  intro h0
  cases h.stands target h0 with
  | calm hcalm => exact Nat.lt_irrefl 0 hcalm.1
  | jump _ ht => cases ht
  | result _ hj _ _ => cases hj

end Emitted

/-- A place in code at which a branch may arrive: not between the instructions of a result. -/
def Landing (code : List Instr) (k : Nat) : Prop :=
  k ≤ code.length ∧ code[k]? ≠ some (.storeLocal resultSlot)

/-- Marks behind other items land where they did, that many instructions further on. -/
theorem landing_behind {target : JumpLabel → Nat} {l : JumpLabel} (before : List Item)
    {rest : List Item} {k : Nat} (hbefore : markedAt? l before = none)
    (hrest : ∀ k, markedAt? l rest = some k → Landing (resolvedCode target rest) k)
    (hk : markedAt? l (before ++ rest) = some k) :
    Landing (resolvedCode target (before ++ rest)) k := by
  rw [markedAt?_append, hbefore] at hk
  cases hmark : markedAt? l rest with
  | none =>
    rw [hmark] at hk
    cases hk
  | some j =>
    rw [hmark] at hk
    obtain rfl := Option.some.inj hk
    obtain ⟨hle, hne⟩ := hrest j hmark
    rw [Landing, resolvedCode_append, List.length_append, ← length_resolvedCode target before,
      List.getElem?_append_right (Nat.le_add_right _ _), Nat.add_sub_cancel_left]
    exact ⟨Nat.add_le_add_left hle _, hne⟩

theorem Emitted.landing {n : Nat} {items : List Item} (h : Emitted n items)
    (target : JumpLabel → Nat) {l : JumpLabel} {k : Nat} (hk : markedAt? l items = some k) :
    Landing (resolvedCode target items) k := by
  induction h generalizing k with
  | nil => cases hk
  | @instr i rest _ _ ih => exact landing_behind [.instr i] rfl (fun k => ih) hk
  | @jump i m rest _ _ ih => exact landing_behind [.jump i m] rfl (fun k => ih) hk
  | @result i rest _ _ ih =>
    exact landing_behind [.instr i, .instr (.storeLocal resultSlot)] rfl (fun k => ih) hk
  | @mark m rest hrest ih =>
    by_cases hm : m = l
    · subst hm
      rw [markedAt?_cons_self] at hk
      cases hmark : markedAt? m rest with
      | none =>
        cases hmark ▸ hk
        exact ⟨Nat.zero_le _, hrest.head_ne target⟩
      | some j =>
        cases hmark ▸ hk
        exact ih hmark
    · exact landing_behind [.mark m] (by simp [markedAt?, hm]) (fun k => ih) hk

/-! ### The shape of a method -/

/-- A method is its opening, some code and its closing, and what stands in the code does not get in
    the way of either. -/
structure Shape (method : Method) (code : List Instr) : Prop where
  instructions : method.instructions = opening method.vars ++ code ++ closing method.vars
  fits : method.vars.length ≤ 2147483648
  calm : ∀ (k : Nat) (i : Instr), code[k]? = some i → i.target? = none →
    i.Calm method.vars.length ∨ i = .storeLocal resultSlot
  boxed : ∀ k : Nat, code[k + 1]? = some (.storeLocal resultSlot) → ∃ b, code[k]? = some b ∧ b.Boxing
  first : code[0]? ≠ some (.storeLocal resultSlot)
  lands : ∀ (k : Nat) (i : Instr) (t : Nat), code[k]? = some i → i.target? = some t →
    ∃ j, t = (opening method.vars).length + j ∧ Landing code j

/-- What is accepted has the shape. -/
theorem Assembled.shape {program : List Stmt} {f : Frame} {items : List Item} {method : Method}
    (h : Assembled program f items method) : ∃ code, Shape method code := by
  have hemitted := emitted_programItems h.emitted
  obtain rfl := h.method
  refine ⟨_, rfl, h.fits, ?_, ?_, hemitted.head_ne _, ?_⟩
  · intro k i hi ht
    cases hemitted.stands _ hi with
    | calm hcalm => exact .inl hcalm
    | jump _ ht' => cases ht.symm.trans ht'
    | result hstore _ _ _ => exact .inr hstore
  · intro k hk
    cases hemitted.stands _ hk with
    | calm hcalm => exact absurd hcalm.1 (Nat.lt_irrefl 0)
    | jump _ ht => cases ht
    | result _ hj hb hboxing =>
      obtain rfl := Nat.succ.inj hj
      exact ⟨_, hb, hboxing⟩
  · intro k i t hi ht
    cases hemitted.stands _ hi with
    | calm hcalm => cases hcalm.target?.symm.trans ht
    | jump hl ht' =>
      obtain rfl := Option.some.inj (ht.symm.trans ht')
      cases hmark : markedAt? _ items with
      | none => exact absurd hmark (h.marked _ _ hl)
      | some j => exact ⟨j, Nat.add_comm _ _, hemitted.landing _ hmark⟩
    | result hstore _ _ _ =>
      subst hstore
      cases ht

end SnippetLang.Code
