import SnippetLang.Code.Machine
import SnippetLang.Proofs.Compilation.Slots
import SnippetLang.Proofs.Running.Steps
import SnippetLang.Proofs.Running.Walking
import SnippetLang.Proofs.Safety.Values

/-!
# Machines that compute

A machine that executes the code of a program holds a store: its slots hold the variables, and it has
the console.  `Computes` says that a piece of code does what a computation on that store does.  The
code runs through to its end and leaves what the computation answers on the stack, or the run ends
inside the code in the same error.

How the slots hold the variables is left to a `Setting`, so what is said of a piece of code does not
depend on what else the machine has in its slots.
-/

namespace SnippetLang.Code

open Machine (step execute)

/-! ### Machines that hold a store -/

/-- What stays the same while a piece of code is executed: the method, the slots that variables are
    kept in, the arguments and the last of them that was read. -/
structure Setting where
  method : Method
  locals : Bindings → List Cell
  arguments : List Value
  element : Option Nat

/-- The machine whose slots hold the variables of a store. -/
def Setting.machine (C : Setting) (index : Nat) (stack : List Cell) (σ : Store) : Machine :=
  { index := index
    stack := stack
    locals := C.locals σ.bindings
    arguments := C.arguments
    lastElement := C.element
    console := σ.console }

/-- A machine holds a typed store. -/
def Setting.Holds (C : Setting) (m : Machine) : Prop :=
  ∃ (index : Nat) (stack : List Cell) (σ : Store), m = C.machine index stack σ ∧ σ.Typed

theorem Setting.holds {σ : Store} (C : Setting) (index : Nat) (stack : List Cell) (hσ : σ.Typed) :
    C.Holds (C.machine index stack σ) := ⟨index, stack, σ, rfl, hσ⟩

/-- A slot is that of a variable: it holds what the variable reads as, and writing the one is setting
    the other. -/
structure Setting.Keeps (C : Setting) (x : Variable) (slot : Nat) : Prop where
  read (b : Bindings) : (C.locals b)[slot]? = some (.ofValue (b.read x))
  write (b : Bindings) (v : Value) : (C.locals b).set slot (.ofValue v) = C.locals (b.set x v)

/-- The slots that a frame gives to variables are theirs. -/
def Setting.KeepsAll (C : Setting) (f : Frame) (xs : List Variable) : Prop :=
  ∀ x ∈ xs, ∀ slot, f.slot x = .ok slot → C.Keeps x slot

/-- What stays the same while the statements of a program are executed: the method, the arguments it
    was started with, and the last of them that was read. -/
structure Stage where
  method : Method
  arguments : List Value
  element : Option Nat

/-- Where code is executed while the result slot holds a cell and the other slots hold the variables
    of the method. -/
def Stage.setting (S : Stage) (result : Cell) : Setting :=
  ⟨S.method, fun b => result :: cellsOf b S.method.vars, S.arguments, S.element⟩

/-- The machine whose slots hold a result and the variables of a store. -/
def Stage.machine (S : Stage) (result : Cell) (index : Nat) (stack : List Cell) (σ : Store) :
    Machine := (S.setting result).machine index stack σ

/-- The slots of a machine hold the variables of a typed store, and its console is that of the
    store. -/
def Carries (vars : List Variable) (m : Machine) : Prop :=
  ∃ (result : Cell) (σ : Store),
    m.locals = result :: cellsOf σ.bindings vars ∧ m.console = σ.console ∧ σ.Typed

theorem Stage.carries {σ : Store} (S : Stage) (result : Cell) (index : Nat) (stack : List Cell)
    (hσ : σ.Typed) : Carries S.method.vars (S.machine result index stack σ) :=
  ⟨result, σ, rfl, rfl, hσ⟩

theorem Stage.carries_of_holds {S : Stage} {result : Cell} (m : Machine)
    (h : (S.setting result).Holds m) : Carries S.method.vars m := by
  obtain ⟨index, stack, σ, rfl, hσ⟩ := h
  exact S.carries result index stack hσ

/-- A stage keeps variables in the slots that the variables of its method have. -/
theorem Stage.keeps {S : Stage} (hd : Distinct S.method.vars) (result : Cell) {x : Variable}
    {k : Nat} (hk : SlotOf S.method.vars x k) : (S.setting result).Keeps x (k + 1) where
  read b := hk.cell b
  write b v := congrArg (result :: ·) (hk.set_cell hd b v)

theorem Stage.keepsAll {S : Stage} {f : Frame} (hd : Distinct S.method.vars)
    (hf : f.vars = S.method.vars) (result : Cell) (xs : List Variable) :
    (S.setting result).KeepsAll f xs := by
  intro x _ slot hslot
  obtain ⟨k, rfl, hk⟩ := slotOf_of_slot hslot
  exact S.keeps hd result (hf ▸ hk)

section

variable {method : Method} {m m' : Machine} {i : Instr}

theorem step_of_execute (h : method.instructions[m.index]? = some i)
    (hx : execute method.vars i { m with index := m.index + 1 } = .ok none m') :
    step method m = .running m' := by
  unfold step
  rw [h]
  simp only [hx]

theorem step_of_execute_error {error : RunError} (h : method.instructions[m.index]? = some i)
    (hx : execute method.vars i { m with index := m.index + 1 } = .error error m') :
    step method m = .finished (.error error m') := by
  unfold step
  rw [h]
  simp only [hx]

theorem step_of_execute_return {v : Value} (h : method.instructions[m.index]? = some i)
    (hx : execute method.vars i { m with index := m.index + 1 } = .ok (some v) m') :
    step method m = .finished (.ok v m') := by
  unfold step
  rw [h]
  simp only [hx]

end

/-! ### Code for computations -/

/-- The code of a length at an index does what a computation did that started on a store: it runs to
    its end and leaves a certain stack, or the run ends in the same error inside the code. -/
inductive Computes (C : Setting) {α : Type} (final : α → List Cell) (n i : Nat)
    (stack : List Cell) (σ : Store) : EStateM.Result RunError Store α → Prop where
  | ok {a : α} {τ : Store} :
      Through (step C.method) C.Holds n (C.machine i stack σ)
        (C.machine (i + n) (final a) τ) →
      Computes C final n i stack σ (.ok a τ)
  | error {error : RunError} {k : Nat} {m : Machine} {τ : Store} :
      k < n → EndsThrough (step C.method) C.Holds k (C.machine i stack σ)
        (.error error m) → m.console = τ.console →
      Computes C final n i stack σ (.error error τ)

namespace Computes

variable {C : Setting} {α β : Type} {final : α → List Cell} {final' : β → List Cell}
  {n n' i : Nat} {stack stack' : List Cell} {σ τ : Store}

theorem instr {ins : Instr} {a : α} (hσ : σ.Typed) (h : C.method.instructions[i]? = some ins)
    (hx : execute C.method.vars ins (C.machine (i + 1) stack σ) =
      .ok none (C.machine (i + 1) (final a) τ)) :
    Computes C final 1 i stack σ (.ok a τ) :=
  .ok (.single (C.holds i stack hσ) (step_of_execute h hx))

theorem failure {ins : Instr} {error : RunError} {m : Machine} (hσ : σ.Typed)
    (h : C.method.instructions[i]? = some ins)
    (hx : execute C.method.vars ins (C.machine (i + 1) stack σ) = .error error m)
    (hm : m.console = τ.console) :
    Computes C final 1 i stack σ (.error error τ) :=
  .error Nat.zero_lt_one
    (.single (C.holds i stack hσ) (step_of_execute_error h hx)) hm

/-- The stack that is left matters for the answer that is given only. -/
theorem congr {final'' : α → List Cell} {r : EStateM.Result RunError Store α}
    (h : Computes C final n i stack σ r) (heq : ∀ a τ, r = .ok a τ → final a = final'' a) :
    Computes C final'' n i stack σ r := by
  cases h with
  | ok hthrough => exact .ok (heq _ _ rfl ▸ hthrough)
  | error hk hends hconsole => exact .error hk hends hconsole

theorem append {a : α} {r : EStateM.Result RunError Store β}
    (h : Computes C final n i stack σ (.ok a τ))
    (h' : Computes C final' n' (i + n) (final a) τ r) :
    Computes C final' (n + n') i stack σ r := by
  cases h with
  | ok hthrough =>
    cases h' with
    | ok hthrough' =>
      have hall := hthrough.trans hthrough'
      rw [Nat.add_assoc] at hall
      exact .ok hall
    | error hk hends hconsole =>
      exact .error (Nat.add_lt_add_left hk n) (hends.after hthrough) hconsole

/-- Code for two computations, of which the second goes on with what the first answers. -/
theorem bind {p : Eval α} {f : α → Eval β} (h : Computes C final n i stack σ (p σ))
    (hf : ∀ a τ, p σ = .ok a τ → Computes C final' n' (i + n) (final a) τ (f a τ)) :
    Computes C final' (n + n') i stack σ ((p >>= f) σ) := by
  simp only [Bind.bind, EStateM.bind]
  cases hp : p σ with
  | ok a τ =>
    rw [hp] at h
    exact h.append (hf a τ hp)
  | error e τ =>
    rw [hp] at h
    cases h with
    | error hk hends hconsole => exact .error (Nat.lt_add_right n' hk) hends hconsole

/-- A computation whose answer is changed afterwards, without code. -/
theorem map {p : Eval α} (g : α → β) (h : Computes C final n i stack σ (p σ))
    (heq : ∀ a, final a = final' (g a)) :
    Computes C final' n i stack σ ((p >>= fun a => pure (g a)) σ) := by
  rw [← Nat.add_zero n]
  apply h.bind
  intro a τ _
  rw [heq a]
  exact .ok .refl

end Computes

end SnippetLang.Code
