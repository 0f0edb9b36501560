import Mathlib.Data.Set.Operations
import Mathlib.Order.Bounds.Defs
import SnippetLang.Proofs.Compilation.Simulation

/-!
# Stack heights

The height that a method declares for its stack is read off its instructions in a straight line, as if
there were no branches.  This is right because the code of a well-typed program never takes more off
the stack than it has put there, and leaves nothing wherever a label is marked or a jump goes on.
-/

namespace SnippetLang.Code

open Typed

/-! ### Heights in a straight line -/

/-- The height behind instructions that are executed in a straight line from a height. -/
def heightAfter (height : Nat) (code : List Instr) : Nat :=
  code.foldl (fun h i => h - i.effect.1 + i.effect.2) height

/-- The height before the instruction at an index, in a straight line from the beginning. -/
def Method.heightAt (method : Method) (index : Nat) : Nat :=
  heightAfter 0 (method.instructions.take index)

/-- The height that instructions raise a height to, if they never take more than is there. -/
def raise? : Nat → List Instr → Option Nat
  | h, [] => some h
  | h, i :: rest => if i.effect.1 ≤ h then raise? (h - i.effect.1 + i.effect.2) rest else none

section

variable {h h' h'' n : Nat} {i : Instr} {code more : List Instr}

theorem heightAfter_append (h : Nat) (code more : List Instr) :
    heightAfter h (code ++ more) = heightAfter (heightAfter h code) more :=
  List.foldl_append

theorem heightAfter_take_succ {k : Nat} (hi : code[k]? = some i) (h : Nat) :
    heightAfter h (code.take (k + 1)) =
      heightAfter h (code.take k) - i.effect.1 + i.effect.2 := by
  rw [List.take_add_one, hi, Option.toList_some, heightAfter_append]
  rfl

/-- No height on the way is greater than the greatest one. -/
theorem heightAfter_take_le (h : Nat) (code : List Instr) (k : Nat) :
    heightAfter h (code.take k) ≤ maxHeight h code := by
  induction code generalizing h k with
  | nil =>
    rw [List.take_nil]
    exact Nat.le_refl h
  | cons i rest ih =>
    cases k with
    | zero => exact Nat.le_max_left _ _
    | succ k => exact Nat.le_trans (ih _ k) (Nat.le_max_right _ _)

theorem exists_heightAfter_take (h : Nat) (code : List Instr) :
    ∃ k, heightAfter h (code.take k) = maxHeight h code := by
  induction code generalizing h with
  | nil => exact ⟨0, rfl⟩
  | cons i rest ih =>
    rcases Nat.le_total (maxHeight (h - i.effect.1 + i.effect.2) rest) h with hle | hle
    · exact ⟨0, (Nat.max_eq_left hle).symm⟩
    · obtain ⟨k, hk⟩ := ih (h - i.effect.1 + i.effect.2)
      exact ⟨k + 1, hk.trans (Nat.max_eq_right hle).symm⟩

/-- What a method declares is the greatest of its heights. -/
theorem Method.isGreatest_maxStack (method : Method) :
    IsGreatest (Set.range method.heightAt) method.maxStack := by
  refine ⟨exists_heightAfter_take 0 method.instructions, ?_⟩
  rintro _ ⟨k, rfl⟩
  exact heightAfter_take_le 0 method.instructions k

theorem raise?_cons (hi : i.effect.1 ≤ h) (code : List Instr) :
    raise? h (i :: code) = raise? (h - i.effect.1 + i.effect.2) code := if_pos hi

theorem raise?_append (h : raise? n code = some h') (h2 : raise? h' more = some h'') :
    raise? n (code ++ more) = some h'' := by
  induction code generalizing n with
  | nil =>
    cases h
    exact h2
  | cons i rest ih =>
    unfold raise? at h
    split at h
    · next hi => exact (raise?_cons hi _).trans (ih h)
    · cases h

/-- What is below does not matter. -/
theorem raise?_add (h : raise? n code = some h') (k : Nat) :
    raise? (k + n) code = some (k + h') := by
  induction code generalizing n with
  | nil =>
    cases h
    rfl
  | cons i rest ih =>
    unfold raise? at h
    split at h
    · next hi =>
      have hsum : k + n - i.effect.1 + i.effect.2 = k + (n - i.effect.1 + i.effect.2) := by omega
      rw [raise?_cons (Nat.le_trans hi (Nat.le_add_left n k)), hsum]
      exact ih h
    · cases h

end

/-! ### The code of expressions -/

/-- How many cells the value of an expression takes on the stack. -/
def cells (ty : Ty) : Nat := if ty = .void then 0 else 1

theorem cells_of_named {ty : Ty} (h : ty.Named) : cells ty = 1 := if_neg h.ne_void

theorem raise?_unaryCode (kind : UnaryKind) : raise? 1 (unaryCode kind) = some 1 := by
  cases kind <;> rfl

theorem raise?_binaryCode (kind : BinaryKind) : raise? 2 (binaryCode kind) = some 1 := by
  cases kind <;> rfl

section

variable {f : Frame}

theorem raise?_literal {v : Value} (hv : v.ty.Named) {code : List Instr}
    (hcode : exprCode f (.literal v) = .ok code) : raise? 0 code = some 1 := by
  cases v with
  | void => exact absurd rfl hv.ne_void
  | bool b | int n | string s =>
    cases hcode
    rfl

theorem raise?_call {code : List Instr} {r : Routine}
    (hcode : raise? 0 code = some r.parameters.length) :
    raise? 0 (code ++ [.call r]) = some (cells r.result) := by
  have heffect : (Instr.call r).effect.1 ≤ r.parameters.length := Nat.le_refl _
  refine raise?_append hcode ((raise?_cons heffect []).trans ?_)
  show some (r.parameters.length - r.parameters.length + cells r.result) = some (cells r.result)
  rw [Nat.sub_self, Nat.zero_add]

mutual

/-- The code of a well-typed expression leaves its value on the stack, and nothing if it has none. -/
theorem raise?_exprCode : (e : Expr) → e.WellTyped → ∀ {code : List Instr},
    exprCode f e = .ok code → raise? 0 code = some (cells e.ty)
  | .error, h, _, _ => nomatch h
  | .literal v, .literal hv, _, hcode => by
    rw [Expr.ty, cells_of_named hv]
    exact raise?_literal hv hcode
  | .read x, .read hx, _, hcode => by
    obtain ⟨slot, _, hcode⟩ := bind_eq_ok hcode
    cases hcode
    rw [Expr.ty, cells_of_named hx]
    rfl
  | .assign x value, .assign hx hty hvalue, _, hcode => by
    obtain ⟨code, hcode', hcode⟩ := bind_eq_ok hcode
    obtain ⟨slot, _, hcode⟩ := bind_eq_ok hcode
    cases hcode
    have hraise := raise?_exprCode value hvalue hcode'
    rw [cells_of_named (hty ▸ hx)] at hraise
    rw [Expr.ty, cells_of_named (hty ▸ hx)]
    exact raise?_append hraise rfl
  | .unary row operand, .unary hrow hty hoperand, _, hcode => by
    obtain ⟨code, hcode', hcode⟩ := bind_eq_ok hcode
    cases hcode
    obtain ⟨hnamed, hnamed'⟩ := unary_named row hrow
    have hraise := raise?_exprCode operand hoperand hcode'
    rw [cells_of_named (hty ▸ hnamed)] at hraise
    rw [Expr.ty, cells_of_named hnamed']
    exact raise?_append hraise (raise?_unaryCode _)
  | .binary left row right, .binary hrow hl hr hleft hright, _, hcode => by
    obtain ⟨first, hfirst, hcode⟩ := bind_eq_ok hcode
    obtain ⟨second, hsecond, hcode⟩ := bind_eq_ok hcode
    cases hcode
    obtain ⟨hlnamed, hrnamed, hnamed⟩ := binary_named row hrow
    have hraise := raise?_exprCode left hleft hfirst
    have hraise' := raise?_exprCode right hright hsecond
    rw [cells_of_named (hl ▸ hlnamed)] at hraise
    rw [cells_of_named (hr ▸ hrnamed)] at hraise'
    rw [Expr.ty, cells_of_named hnamed]
    exact raise?_append (raise?_append hraise (raise?_add hraise' 1)) (raise?_binaryCode _)
  | .call g args, .call hg hty hargs, _, hcode => by
    obtain ⟨r, hr, hparameters, hresult⟩ := Routine.ofFunction_of_mem hg
    obtain ⟨r', hr', hcode⟩ := bind_eq_ok hcode
    obtain rfl := Except.ok.inj (hr'.symm.trans hr)
    obtain ⟨code, hcode', hcode⟩ := bind_eq_ok hcode
    cases hcode
    have htys : args.map (·.ty) = r'.parameters := hty.trans hparameters.symm
    have hnamed : ∀ arg ∈ args, arg.WellTyped ∧ arg.ty.Named := fun arg harg =>
      ⟨hargs arg harg, r'.parameters_named _ (htys ▸ List.mem_map_of_mem harg)⟩
    have hlength : r'.parameters.length = args.length := by rw [← htys, List.length_map]
    have hraise := raise?_exprsCode args hnamed hcode'
    rw [← hlength] at hraise
    rw [Expr.ty, ← hresult]
    exact raise?_call hraise
  | .convert target e, .convert hc he, _, hcode => by
    obtain ⟨r, hr, hparameters, hresult⟩ := Routine.ofConversion_of_converts hc
    obtain ⟨r', hr', hcode⟩ := bind_eq_ok hcode
    obtain rfl := Except.ok.inj (hr'.symm.trans hr)
    obtain ⟨code, hcode', hcode⟩ := bind_eq_ok hcode
    cases hcode
    have hnamed : e.ty.Named :=
      r'.parameters_named _ (hparameters ▸ List.mem_singleton_self e.ty)
    have hraise := raise?_exprCode e he hcode'
    rw [cells_of_named hnamed] at hraise
    have hlength : r'.parameters.length = 1 := by rw [hparameters]; rfl
    rw [← hlength] at hraise
    rw [Expr.ty, ← hresult]
    exact raise?_call hraise

theorem raise?_exprsCode : (es : List Expr) → (∀ e ∈ es, e.WellTyped ∧ e.ty.Named) →
    ∀ {code : List Instr}, exprsCode f es = .ok code → raise? 0 code = some es.length
  | [], _, _, hcode => by
    cases hcode
    rfl
  | e :: es, h, _, hcode => by
    obtain ⟨first, hfirst, hcode⟩ := bind_eq_ok hcode
    obtain ⟨second, hsecond, hcode⟩ := bind_eq_ok hcode
    cases hcode
    obtain ⟨⟨he, hnamed⟩, hes⟩ := List.forall_mem_cons.1 h
    have hraise := raise?_exprCode e he hfirst
    rw [cells_of_named hnamed] at hraise
    rw [List.length_cons, Nat.add_comm]
    exact raise?_append hraise (raise?_add (raise?_exprsCode es hes hsecond) 1)

end

end

/-! ### Items -/

/-- Items raise a height to another one and never take more than is there.  Labels are marked where
    nothing is on the stack, and jumps leave nothing there. -/
inductive Balanced : Nat → List Item → Nat → Prop where
  | nil {h : Nat} : Balanced h [] h
  | instr {h h' : Nat} {i : Instr} {rest : List Item} :
      i.effect.1 ≤ h → Balanced (h - i.effect.1 + i.effect.2) rest h' →
      Balanced h (.instr i :: rest) h'
  | jump {h h' : Nat} {i : Instr} {l : JumpLabel} {rest : List Item} :
      i.effect = (h, 0) → Balanced 0 rest h' → Balanced h (.jump i l :: rest) h'
  | mark {h' : Nat} {l : JumpLabel} {rest : List Item} :
      Balanced 0 rest h' → Balanced 0 (.mark l :: rest) h'

theorem effect_retarget (i : Instr) (g : Nat → Nat) : (i.retarget g).effect = i.effect := by
  cases i <;> rfl

theorem balanced_of_raise? {h h' : Nat} {code : List Instr} (hcode : raise? h code = some h') :
    Balanced h (code.map .instr) h' := by
  induction code generalizing h with
  | nil =>
    cases hcode
    exact .nil
  | cons i rest ih =>
    unfold raise? at hcode
    split at hcode
    · next hi => exact .instr hi (ih hcode)
    · cases hcode

namespace Balanced

variable {h h' h'' k : Nat} {items more : List Item} {target : JumpLabel → Nat} {i : Instr}

theorem append (hitems : Balanced h items h') (hmore : Balanced h' more h'') :
    Balanced h (items ++ more) h'' := by
  induction hitems with
  | nil => exact hmore
  | instr hi _ ih => exact .instr hi (ih hmore)
  | jump hi _ ih => exact .jump hi (ih hmore)
  | mark _ ih => exact .mark (ih hmore)

/-- Behind a jump nothing is on the stack. -/
theorem heightAfter_jump {l : JumpLabel} (hi : i.effect = (h, 0)) (code : List Instr) :
    heightAfter h ((i.retarget fun _ => target l) :: code) = heightAfter 0 code := by
  show heightAfter (h - (i.retarget fun _ => target l).effect.1 +
    (i.retarget fun _ => target l).effect.2) code = _
  rw [effect_retarget, hi, Nat.sub_self, Nat.zero_add]

/-- The straight line through the instructions ends where the items do. -/
theorem heightAfter_eq (hitems : Balanced h items h') (target : JumpLabel → Nat) :
    heightAfter h (resolvedCode target items) = h' := by
  induction hitems with
  | nil => rfl
  | instr _ _ ih => exact ih
  | jump hi _ ih => exact (heightAfter_jump hi _).trans ih
  | mark _ ih => exact ih

/-- No instruction takes more than is there. -/
theorem enough (hitems : Balanced h items h') (hi : (resolvedCode target items)[k]? = some i) :
    i.effect.1 ≤ heightAfter h ((resolvedCode target items).take k) := by
  induction hitems generalizing k with
  | nil => cases hi
  | instr henough _ ih =>
    cases k with
    | zero =>
      cases hi
      exact henough
    | succ k => exact ih hi
  | @jump h _ j l rest hj _ ih =>
    cases k with
    | zero =>
      obtain rfl : j.retarget (fun _ => target l) = i := Option.some.inj hi
      rw [effect_retarget, hj]
      exact Nat.le_refl h
    | succ k => exact Nat.le_trans (ih hi) (Nat.le_of_eq (heightAfter_jump hj _).symm)
  | mark _ ih => exact ih hi

/-- A branch is that of a jump, and leaves nothing on the stack. -/
theorem branch (hitems : Balanced h items h') (hsensible : ∀ item ∈ items, item.Sensible)
    (hi : (resolvedCode target items)[k]? = some i) {t : Nat} (ht : i.target? = some t) :
    (∃ j l, .jump j l ∈ items ∧ t = target l) ∧
      heightAfter h ((resolvedCode target items).take (k + 1)) = 0 := by
  induction hitems generalizing k with
  | nil => cases hi
  | @instr h _ j rest _ _ ih =>
    obtain ⟨hj, hrest⟩ := List.forall_mem_cons.1 hsensible
    cases k with
    | zero =>
      obtain rfl : j = i := Option.some.inj hi
      cases hj.symm.trans ht
    | succ k =>
      obtain ⟨⟨j', l, hl, heq⟩, hzero⟩ := ih hrest hi
      exact ⟨⟨j', l, List.mem_cons_of_mem _ hl, heq⟩, hzero⟩
  | @jump h _ j l rest hj _ ih =>
    cases k with
    | zero =>
      obtain rfl : j.retarget (fun _ => target l) = i := Option.some.inj hi
      refine ⟨⟨j, l, List.mem_cons_self .., ?_⟩, heightAfter_jump hj []⟩
      cases j <;> cases ht <;> rfl
    | succ k =>
      obtain ⟨⟨j', m, hm, heq⟩, hzero⟩ := ih (List.forall_mem_cons.1 hsensible).2 hi
      exact ⟨⟨j', m, List.mem_cons_of_mem _ hm, heq⟩, (heightAfter_jump hj _).trans hzero⟩
  | mark _ ih =>
    obtain ⟨⟨j, m, hm, heq⟩, hzero⟩ := ih (List.forall_mem_cons.1 hsensible).2 hi
    exact ⟨⟨j, m, List.mem_cons_of_mem _ hm, heq⟩, hzero⟩

/-- Nothing is on the stack where a label is marked. -/
theorem marked (hitems : Balanced h items h') {l : JumpLabel} (hk : markedAt? l items = some k) :
    heightAfter h ((resolvedCode target items).take k) = 0 := by
  induction hitems generalizing k with
  | nil => cases hk
  | @instr _ _ j rest _ _ ih =>
    have hne : Item.instr j ≠ .mark l := nofun
    rw [markedAt?_cons_of_ne hne] at hk
    obtain ⟨m, hm, rfl⟩ := Option.map_eq_some_iff.1 hk
    rw [Nat.add_comm]
    exact ih hm
  | @jump _ _ j l' rest hj _ ih =>
    have hne : Item.jump j l' ≠ .mark l := nofun
    rw [markedAt?_cons_of_ne hne] at hk
    obtain ⟨m, hm, rfl⟩ := Option.map_eq_some_iff.1 hk
    rw [Nat.add_comm]
    exact (heightAfter_jump hj _).trans (ih hm)
  | @mark _ l' rest _ ih =>
    by_cases hl : l' = l
    · subst hl
      rw [markedAt?_cons_self] at hk
      cases hm : markedAt? l' rest with
      | none =>
        cases hm ▸ hk
        rfl
      | some m =>
        cases hm ▸ hk
        exact ih hm
    · rw [markedAt?_cons_of_ne (by simpa using hl)] at hk
      obtain ⟨m, hm, rfl⟩ := Option.map_eq_some_iff.1 hk
      rw [Item.raw, List.length_nil, Nat.zero_add]
      exact ih hm

end Balanced

/-! ### The items of programs -/

section

variable {f : Frame} {program : List Stmt} {s : Stmt} {style : Style}

theorem raise?_codeOf {e : Expr} (he : e.WellTyped)
    (hvars : ∀ x ∈ exprVariables e, HasSlot f.vars x) :
    raise? 0 (codeOf f e) = some (cells e.ty) := raise?_exprCode e he (exprCode_eq he hvars).1

theorem raise?_resultCode {ty : Ty} (hty : ty.Named ∨ ty = .void) :
    raise? (cells ty) (resultCode ty) = some 0 := by
  rcases hty with hnamed | rfl
  · rw [cells_of_named hnamed, resultCode, if_neg hnamed.ne_void]
    rfl
  · rfl

theorem raise?_dropCode (ty : Ty) : raise? (cells ty) (dropCode ty) = some 0 := by
  unfold cells dropCode
  split <;> rfl

theorem raise?_store {x : Variable} {init : Expr} (hx : x.ty.Named) (hty : init.ty = x.ty)
    (hinit : init.WellTyped) (hvars : ∀ y ∈ exprVariables init, HasSlot f.vars y) (slot : Nat) :
    raise? 0 (codeOf f init ++ [.storeLocal slot]) = some 0 := by
  have hraise := raise?_codeOf hinit hvars
  rw [cells_of_named (hty ▸ hx)] at hraise
  exact raise?_append hraise rfl

/-- The block of a statement begins and ends with nothing on the stack. -/
theorem balanced_block (hs : s.Executable program)
    (hvars : ∀ x ∈ stmtVariables s, HasSlot f.vars x) : Balanced 0 (style.block f s) 0 := by
  cases hs with
  | @declare x init hx hty hinit =>
    have hinit' := (List.forall_mem_append.1 hvars).1
    have hstore := raise?_store hx hty hinit hinit' (slotNumber f x)
    cases style with
    | keeping =>
      have hresult := raise?_resultCode (.inl hx)
      rw [cells_of_named hx] at hresult
      have hblock : Style.keeping.block f (.declare x init) =
          (codeOf f init ++ [Instr.storeLocal (slotNumber f x)] ++
            ([Instr.loadLocal (slotNumber f x)] ++ resultCode x.ty)).map .instr := by
        simp [Style.block, block]
      rw [hblock]
      exact balanced_of_raise? (raise?_append hstore (raise?_append rfl hresult))
    | dropping => exact balanced_of_raise? hstore
  | @expr e he =>
    have hraise := raise?_codeOf he hvars
    cases style with
    | keeping =>
      exact balanced_of_raise? (raise?_append hraise (raise?_resultCode (named_or_void he)))
    | dropping => exact balanced_of_raise? (raise?_append hraise (raise?_dropCode e.ty))
  | goto _ => cases style <;> exact .jump rfl .nil
  | @gotoIf l c jumpIf _ hty hc =>
    have hraise := raise?_codeOf hc hvars
    rw [hty] at hraise
    have hbalanced := (balanced_of_raise? hraise).append
      (.jump (l := l) (i := if jumpIf then .branchTrue 0 else .branchFalse 0)
        (by cases jumpIf <;> rfl) .nil)
    cases style <;> exact hbalanced
  | label => cases style <;> exact .mark .nil

theorem balanced_blocks {code : List Stmt} (h : ExecutableIn program code)
    (hvars : Covers f.vars code) : Balanced 0 (style.blocks f code) 0 := by
  induction code with
  | nil => exact .nil
  | cons s rest ih =>
    obtain ⟨hs, hrest⟩ := List.forall_mem_cons.1 h
    obtain ⟨hvars, hvars'⟩ := List.forall_mem_cons.1 hvars
    exact (balanced_block hs hvars).append (ih hrest hvars')

end

theorem raise?_prologue (index : Nat) (vars : List Variable) :
    raise? 0 (Frame.prologue index vars) = some 0 := by
  induction vars generalizing index with
  | nil => rfl
  | cons x rest ih => exact raise?_append rfl (ih (index + 1))

theorem raise?_epilogue (index : Nat) (vars : List Variable) :
    raise? 0 (Frame.epilogue index vars) = some 0 := by
  induction vars generalizing index with
  | nil => rfl
  | cons x rest ih => exact raise?_append rfl (ih (index + 1))

end SnippetLang.Code
