import SnippetLang.Proofs.Compilation.Computing
import SnippetLang.Proofs.Compilation.Instructions
import SnippetLang.Code.Emission

/-!
# Operators and routines on machines

The code of an operator or a routine, behind that of its operands, computes what the operator or the
routine does.  A truth value is a number on the stack, so a comparison that the machine does not have
is the opposite one compared with zero.
-/

namespace SnippetLang.Code

open Typed

/-- Values of one type are the same exactly if their cells are. -/
theorem ofValue_beq {v w : Value} (h : v.ty = w.ty) :
    (Cell.ofValue v == Cell.ofValue w) = (v == w) := by
  cases v with
  | bool b =>
    obtain ⟨c, rfl⟩ := Value.bool_of_ty h.symm
    cases b <;> cases c <;> rfl
  | int n =>
    obtain ⟨m, rfl⟩ := Value.int_of_ty h.symm
    rw [Bool.eq_iff_iff]
    simp [Cell.ofValue]
  | string s =>
    obtain ⟨t, rfl⟩ := Value.string_of_ty h.symm
    rw [Bool.eq_iff_iff]
    simp [Cell.ofValue]
  | void =>
    obtain rfl := Value.void_of_ty h.symm
    rfl

section

variable {C : Setting} {i : Nat} {stack : List Cell} {σ : Store} {v w : Value}

/-! ### Operators -/

/-- A truth value is negated by comparing it with zero. -/
theorem computes_testZero (hσ : σ.Typed) (hp : Placed C.method.instructions i testZero) (b : Bool) :
    Computes C (fun u => .ofValue u :: stack) 2 i (.ofValue (.bool b) :: stack) σ
      (.ok (.bool !b) σ) := by
  have hload : Computes C (fun _ : Unit => .int 0 :: .ofValue (.bool b) :: stack) 1 i
      (.ofValue (.bool b) :: stack) σ (.ok () σ) := .instr hσ hp.head rfl
  refine hload.append (.instr hσ hp.tail.head ?_)
  cases b <;> rfl

theorem computes_unary (hσ : σ.Typed) {row : UnaryOperator} (hrow : row ∈ UnaryOperator.table)
    (hv : v.ty = row.operand) (hp : Placed C.method.instructions i (unaryCode row.kind)) :
    Computes C (fun u => .ofValue u :: stack) (unaryCode row.kind).length i
      (.ofValue v :: stack) σ (Eval.lift (applyUnary row v) σ) := by
  simp only [UnaryOperator.table, List.mem_cons, List.not_mem_nil, or_false] at hrow
  rcases hrow with rfl | rfl | rfl | rfl
  · obtain ⟨b, rfl⟩ := Value.bool_of_ty hv
    exact computes_testZero hσ hp b
  all_goals obtain ⟨n, rfl⟩ := Value.int_of_ty hv
  · exact .ok .refl
  · exact .instr hσ hp.head rfl
  · exact .instr hσ hp.head rfl

theorem computes_equals (hσ : σ.Typed) (hty : v.ty = w.ty)
    (h : C.method.instructions[i]? = some .compareEqual) :
    Computes C (fun u => .ofValue u :: stack) 1 i (.ofValue w :: .ofValue v :: stack) σ
      (.ok (.bool (v == w)) σ) := by
  refine .instr hσ h ?_
  rw [← ofValue_beq hty]
  rfl

theorem computes_negated {b : Bool} {ins : Instr}
    (h : Computes C (fun u => .ofValue u :: stack) 1 i (.ofValue w :: .ofValue v :: stack) σ
      (.ok (.bool b) σ)) (hσ : σ.Typed)
    (hp : Placed C.method.instructions i (ins :: testZero)) :
    Computes C (fun u => .ofValue u :: stack) 3 i (.ofValue w :: .ofValue v :: stack) σ
      (.ok (.bool !b) σ) := h.append (computes_testZero hσ hp.tail b)

theorem computes_divide (hσ : σ.Typed) (n m : Int32) (h : C.method.instructions[i]? = some .div) :
    Computes C (fun u => .ofValue u :: stack) 1 i (.int m :: .int n :: stack) σ
      (Eval.lift (divide (.int n) (.int m)) σ) := by
  by_cases hm : m = 0
  · subst hm
    exact .failure hσ h rfl rfl
  · have hquotient : divide (.int n) (.int m) = .ok (.int (n / m)) := by
      simp only [divide, needInt, bind, Except.bind, if_neg hm]
      rfl
    rw [hquotient]
    exact .instr hσ h (execute_div rfl hm)

theorem not_decide_lt (n m : Int32) : (!decide (n < m)) = decide (m ≤ n) := by
  rw [Bool.eq_iff_iff]
  simp [Int32.not_lt]

/-- The code of a binary operator computes what the operator does. -/
theorem computes_binary (hσ : σ.Typed) {row : BinaryOperator} (hrow : row ∈ BinaryOperator.table)
    (hv : v.ty = row.left) (hw : w.ty = row.right)
    (hp : Placed C.method.instructions i (binaryCode row.kind)) :
    Computes C (fun u => .ofValue u :: stack) (binaryCode row.kind).length i
      (.ofValue w :: .ofValue v :: stack) σ (Eval.lift (applyBinary row v w) σ) := by
  simp only [BinaryOperator.table, List.mem_cons, List.not_mem_nil, or_false] at hrow
  rcases hrow with rfl | rfl | rfl | rfl | rfl | rfl | rfl | rfl | rfl | rfl | rfl | rfl | rfl |
    rfl | rfl | rfl | rfl | rfl | rfl | rfl | rfl | rfl | rfl
  all_goals first
    | obtain ⟨n, rfl⟩ := Value.int_of_ty hv
      obtain ⟨m, rfl⟩ := Value.int_of_ty hw
    | obtain ⟨b, rfl⟩ := Value.bool_of_ty hv
      obtain ⟨c, rfl⟩ := Value.bool_of_ty hw
    | obtain ⟨s, rfl⟩ := Value.string_of_ty hv
      obtain ⟨t, rfl⟩ := Value.string_of_ty hw
  -- numbers
  · exact .instr hσ hp.head rfl
  · exact .instr hσ hp.head rfl
  · exact .instr hσ hp.head rfl
  · exact computes_divide hσ n m hp.head
  · exact .instr hσ hp.head rfl
  · exact .instr hσ hp.head rfl
  · exact .instr hσ hp.head rfl
  · exact computes_equals hσ rfl hp.head
  · exact computes_negated (computes_equals hσ rfl hp.head) hσ hp
  · exact .instr hσ hp.head rfl
  · show Computes _ _ _ _ _ _ (.ok (Value.bool (n ≤ m)) σ)
    rw [← not_decide_lt m n]
    exact computes_negated (.instr hσ hp.head rfl) hσ hp
  · exact .instr hσ hp.head rfl
  · show Computes _ _ _ _ _ _ (.ok (Value.bool (m ≤ n)) σ)
    rw [← not_decide_lt n m]
    exact computes_negated (.instr hσ hp.head rfl) hσ hp
  -- truth values
  · refine .instr hσ hp.head ?_
    cases b <;> cases c <;> rfl
  · refine .instr hσ hp.head ?_
    cases b <;> cases c <;> rfl
  · refine .instr hσ hp.head ?_
    cases b <;> cases c <;> rfl
  · refine .instr hσ hp.head ?_
    cases b <;> cases c <;> rfl
  · refine .instr hσ hp.head ?_
    cases b <;> cases c <;> rfl
  · exact computes_equals hσ rfl hp.head
  · exact computes_negated (computes_equals hσ rfl hp.head) hσ hp
  -- texts
  · exact .instr hσ hp.head rfl
  · exact computes_equals hσ rfl hp.head
  · exact computes_negated (computes_equals hσ rfl hp.head) hσ hp

/-! ### Routines -/

/-- The call of a routine computes what the routine does. -/
theorem computes_call (hσ : σ.Typed) {r : Routine} {vs : List Value}
    (hvs : vs.map (·.ty) = r.parameters) (h : C.method.instructions[i]? = some (.call r)) :
    Computes C (pushed · stack) 1 i ((vs.map .ofValue).reverse ++ stack) σ
      (Eval.onConsole (r.invoke vs) σ) := by
  have hnamed : ∀ v ∈ vs, v.ty.Named := by
    intro v hv
    exact r.parameters_named _ (hvs ▸ List.mem_map_of_mem hv)
  have hpop : Machine.popValues r.parameters
      (C.machine (i + 1) ((vs.map .ofValue).reverse ++ stack) σ) =
        .ok vs (C.machine (i + 1) stack σ) := by
    rw [← hvs]
    exact popValues_eq hnamed rfl
  have hsafe := Routine.invoke_safe hσ hvs
  unfold Eval.onConsole at hsafe ⊢
  cases hinvoke : r.invoke vs σ.console with
  | mk answer c =>
    rw [hinvoke] at hsafe
    cases answer with
    | ok v => exact .instr hσ h (execute_call_ok hpop hinvoke (hsafe.of_ok rfl).1)
    | error e => exact .failure hσ h (execute_call_error hpop hinvoke) rfl

end

end SnippetLang.Code
