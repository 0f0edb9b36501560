import SnippetLang.Proofs.Compilation.Agreement
import SnippetLang.Proofs.Compilation.Crowding

/-!
# Soundness

Whichever way a clean snippet is evaluated on a sound store, nothing goes wrong that its types speak
about.  The evaluation ends with a value or in an error that programs can cause, every expression has
a value of its type on the way, and the variables keep their types.  The one exception is a snippet
that is too crowded to be compiled.
-/

namespace SnippetLang

/-! ### Parts of expressions -/

namespace Typed

/-- An expression and those that it is made of. -/
inductive Expr.Part : Expr → Expr → Prop where
  | self {e : Expr} : Part e e
  | assign {x : Variable} {value e : Expr} : Part value e → Part (.assign x value) e
  | unary {op : UnaryOperator} {operand e : Expr} : Part operand e → Part (.unary op operand) e
  | left {left right e : Expr} {op : BinaryOperator} :
      Part left e → Part (.binary left op right) e
  | right {left right e : Expr} {op : BinaryOperator} :
      Part right e → Part (.binary left op right) e
  | call {g : Function} {args : List Expr} {arg e : Expr} :
      arg ∈ args → Part arg e → Part (.call g args) e
  | convert {target : Ty} {operand e : Expr} : Part operand e → Part (.convert target operand) e

theorem Expr.Part.wellTyped {whole e : Expr} (h : whole.Part e) (hwhole : whole.WellTyped) :
    e.WellTyped := by
  induction h with
  | self => exact hwhole
  | assign _ ih =>
    cases hwhole with
    | assign _ _ hvalue => exact ih hvalue
  | unary _ ih =>
    cases hwhole with
    | unary _ _ hoperand => exact ih hoperand
  | left _ ih =>
    cases hwhole with
    | binary _ _ _ hleft _ => exact ih hleft
  | right _ ih =>
    cases hwhole with
    | binary _ _ _ _ hright => exact ih hright
  | call hmem _ ih =>
    cases hwhole with
    | call _ _ hargs => exact ih (hargs _ hmem)
  | convert _ ih =>
    cases hwhole with
    | convert _ hoperand => exact ih hoperand

/-- A statement of a program evaluates an expression, or one that it is a part of. -/
def Occurs (program : List Stmt) (e : Expr) : Prop :=
  ∃ s ∈ program, ∃ whole, s.expr? = some whole ∧ whole.Part e

theorem Occurs.wellTyped {program : List Stmt} {e : Expr} (h : Occurs program e)
    (hprogram : ExecutableIn program program) : e.WellTyped := by
  obtain ⟨s, hs, whole, hwhole, hpart⟩ := h
  exact hpart.wellTyped ((hprogram s hs).expr?_wellTyped hwhole)

end Typed

namespace Code

open Machine (step)
open Typed

/-! ### The code of expressions -/

/-- A machine stands at the code of an expression, which has a length, behind the opening of its
    method. -/
def Machine.AtCode (method : Method) (m : Machine) (e : Expr) (n : Nat) : Prop :=
  ∃ (f : Frame) (code : List Instr), f.vars = method.vars ∧ exprCode f e = .ok code ∧
    code.length = n ∧ (opening method.vars).length ≤ m.index ∧
    Placed method.instructions m.index code

section

variable {f : Frame} {program : List Stmt} {S : Stage} {start : Store} {m m' opened : Machine}
  {e : Expr} {n : Nat}

/-- Behind the opening the slots hold the variables of a sound store at every moment of a run. -/
theorem Opened.carries (h : Opened f program S start opened)
    (hm : Reaches (step S.method) (S.method.start start) m)
    (hindex : (opening S.method.vars).length ≤ m.index) : Carries S.method.vars m := by
  obtain ⟨k, hthrough⟩ := h.through
  obtain ⟨n, hn⟩ := hm
  rcases hthrough.meets hn with ⟨-, hlt⟩ | ⟨j, -, hj⟩
  · exact absurd hindex (Nat.not_le.2 hlt)
  · exact (simulation h.compiled start).safe_of_reaches h.related ⟨j, hj⟩

/-- Code that is run through leaves a value of the type of its expression on the stack. -/
theorem Opened.code_typed (h : Opened f program S start opened)
    (hm : Reaches (step S.method) (S.method.start start) m) (he : e.WellTyped)
    (hcode : m.AtCode S.method e n) (hsteps : Steps (step S.method) n m m') :
    m'.index = m.index + n ∧ ∃ v : Value, v.ty = e.ty ∧ m'.stack = pushed v m.stack := by
  obtain ⟨g, code, hg, heq, rfl, hindex, hplaced⟩ := hcode
  obtain ⟨result, σ, hlocals, hconsole, hσ⟩ := h.carries hm hindex
  let T : Stage := ⟨S.method, m.arguments, m.lastElement⟩
  have hmachine : m = (T.setting result).machine m.index m.stack σ := by
    obtain ⟨index, stack, locals, arguments, element, console⟩ := m
    obtain rfl : locals = _ := hlocals
    obtain rfl : console = _ := hconsole
    rfl
  have hcomputes : Computes (T.setting result) (pushed · m.stack) code.length m.index m.stack σ
      (e.eval σ) :=
    computes_eval e he (T.keepsAll h.compiled.distinct hg result _) heq hplaced hσ
  have hsafe := eval_safe e he hσ
  generalize e.eval σ = r at hcomputes hsafe
  cases hcomputes with
  | @ok v τ hthrough =>
    rw [← hmachine] at hthrough
    rcases hthrough.meets hsteps with ⟨hlt, -⟩ | ⟨k, hk, hrest⟩
    · exact absurd hlt (Nat.lt_irrefl _)
    · obtain rfl : k = 0 := by omega
      cases hrest
      exact ⟨rfl, v, (hsafe.of_ok rfl).1, rfl⟩
  | error hlt hends _ =>
    rw [← hmachine] at hends
    exact absurd (hends.meets hsteps).1 (Nat.not_le.2 hlt)

end

/-- The store behind a run of a method keeps the types. -/
theorem Matches.typed {method : Method} {σ : Store} {o : Outcome} {c : Machine.Ending}
    (h : Matches method.vars σ o c) (hσ : σ.bindings.Typed)
    (hnamed : ∀ x ∈ method.vars, x.ty.Named) : (method.outcome σ c).store.bindings.Typed := by
  cases h with
  | @ok v τ m harguments _ hτ _ =>
    apply hσ.setAll
    intro pair hpair
    rw [harguments, ← List.map_prod_left_eq_zip] at hpair
    obtain ⟨x, hx, rfl⟩ := List.mem_map.1 hpair
    exact hτ.bindings.read (hnamed x hx).ne_error
  | error _ => exact hσ

/-- A run of a method ends in an error that programs can cause, if the walk beside it does. -/
theorem Matches.permitted {method : Method} {σ : Store} {o : Outcome} {c : Machine.Ending}
    (h : Matches method.vars σ o c) (ho : EndsSafely True (fun _ => True) o) :
    ∀ error τ, method.outcome σ c = .error error τ → error.Permitted := by
  intro error τ heq
  cases h with
  | ok _ _ _ _ => cases heq
  | error _ =>
    cases heq
    exact (ho.of_error rfl).1 trivial

end Code

namespace Snippet

variable {s : Snippet} {σ : Store}

/-! ### Ends of evaluations -/

theorem Clean.treeWalk_safe (h : s.Clean) (hσ : σ.Sound) {n : Nat} {a : Evaluation}
    (ha : s.evaluate .treeWalk σ n = some a) :
    ∃ o, a = .ended o ∧ o.store.bindings.Typed ∧
      ∀ error τ, o = .error error τ → error.Permitted := by
  rw [h.evaluate_treeWalk] at ha
  obtain ⟨o, ho, rfl⟩ := Option.map_eq_some_iff.1 ha
  refine ⟨o, rfl, ?_⟩
  have hsound : σ.SoundIf True := hσ.soundIf
  cases Typed.Walk.endsSafely_of_endsWith h.executable hsound ⟨n, ho⟩ with
  | ok _ hτ => exact ⟨hτ.bindings, nofun⟩
  | error herror hτ =>
    refine ⟨hτ.bindings, fun error τ heq => ?_⟩
    cases heq
    exact herror trivial

theorem Clean.compiled_safe (h : s.Clean) (hfits : s.slots.length ≤ 2147483648) (hσ : σ.Sound)
    {n : Nat} {a : Evaluation} (ha : s.evaluate .compiled σ n = some a) :
    ∃ o, a = .ended o ∧ o.store.bindings.Typed ∧
      ∀ error τ, o = .error error τ → error.Permitted := by
  obtain ⟨f, S, m, hopened⟩ := Code.exists_opened h.executable hfits hσ
  have hvars : S.method.vars = s.slots := hopened.compiled.vars_eq
  rw [h.evaluate_compiled hopened.method, Option.map_map] at ha
  obtain ⟨c, hc, rfl⟩ := Option.map_eq_some_iff.1 ha
  obtain ⟨o, ho, hmatch⟩ := hopened.backward ⟨n, hc⟩
  have hsound : σ.SoundIf True := hσ.soundIf
  have hsafe := Typed.Walk.endsSafely_of_endsWith h.executable hsound ho
  have hmatch' : Code.Matches S.method.vars σ o c := hvars ▸ hmatch
  have hnamed : ∀ x ∈ S.method.vars, x.ty.Named := hvars ▸ Code.slots_named h.executable
  exact ⟨_, rfl, hmatch'.typed hσ.bindings hnamed, hmatch'.permitted hsafe⟩

/-- A clean snippet with too many variables for slots is refused by the compiler. -/
theorem Clean.method_refused (h : s.Clean) (hmany : ¬ s.slots.length ≤ 2147483648) :
    s.method = .error (.invalidProgram .tooManyVariables) := by
  obtain ⟨f, -, hcompile⟩ := Code.compile_eq h.executable
  exact hcompile.trans (if_neg hmany)

theorem Clean.compiled_refused (h : s.Clean) (hmany : ¬ s.slots.length ≤ 2147483648) (n : Nat) :
    s.evaluate .compiled σ n =
      some (.ended (.error (.internal (.invalidProgram .tooManyVariables)) σ)) := by
  unfold evaluate execution
  rw [if_pos (by rw [h.issues_eq_nil]; rfl), h.method_refused hmany]
  rfl

/-- Evaluating a clean snippet on a sound store is sound.  Every end leaves variables of their types
    behind, and every error is one that programs can cause, or that of a compiler asked for more
    slots than it can number.  Every expression that the walk evaluates has a value of its type, and
    so has every expression of the program whose code is run through. -/
theorem evaluate_sound (h : s.Clean) (hσ : σ.Sound) :
    (∀ backend n a, s.evaluate backend σ n = some a →
      ∃ o, a = .ended o ∧ o.store.bindings.Typed ∧
        ∀ error τ, o = .error error τ → error.Permitted ∨
          backend = .compiled ∧ 2147483648 < s.slots.length ∧
            error = .internal (.invalidProgram .tooManyVariables)) ∧
    (∀ e τ v υ, Typed.Walk.ComesTo s.lowered σ e τ → e.eval τ = .ok v υ → v.ty = e.ty) ∧
    ∀ method m e n m', s.method = .ok method →
      Reaches (Code.Machine.step method) (method.start σ) m → Typed.Occurs s.lowered e →
      m.AtCode method e n → Steps (Code.Machine.step method) n m m' →
      m'.index = m.index + n ∧ ∃ v : Value, v.ty = e.ty ∧ m'.stack = Code.pushed v m.stack := by
  refine ⟨?_, ?_, ?_⟩
  · intro backend n a ha
    cases backend with
    | treeWalk =>
      obtain ⟨o, rfl, htyped, herror⟩ := h.treeWalk_safe hσ ha
      exact ⟨o, rfl, htyped, fun error τ heq => .inl (herror error τ heq)⟩
    | compiled =>
      by_cases hfits : s.slots.length ≤ 2147483648
      · obtain ⟨o, rfl, htyped, herror⟩ := h.compiled_safe hfits hσ ha
        exact ⟨o, rfl, htyped, fun error τ heq => .inl (herror error τ heq)⟩
      · rw [h.compiled_refused hfits] at ha
        obtain rfl := Option.some.inj ha
        refine ⟨_, rfl, hσ.bindings, fun error τ heq => ?_⟩
        cases heq
        exact .inr ⟨rfl, Nat.not_le.1 hfits, rfl⟩
  · intro e τ v υ hcomes heval
    exact ((hcomes.safe h.executable hσ).of_ok heval).1
  · intro method m e n m' hmethod hreaches hoccurs hcode hsteps
    by_cases hfits : s.slots.length ≤ 2147483648
    · obtain ⟨f, S, opened, hopened⟩ := Code.exists_opened h.executable hfits hσ
      obtain rfl : S.method = method := Except.ok.inj (hopened.method.symm.trans hmethod)
      exact hopened.code_typed hreaches (hoccurs.wellTyped h.executable) hcode hsteps
    · cases (h.method_refused hfits).symm.trans hmethod

/-- The code of a sum leaves a number on the stack, and its evaluation ends in no internal error. -/
theorem evaluate_sound_sum :
    let s := first "1 + 2"
    let σ : Store := ⟨Bindings.empty, Console.start [] fun _ => 0⟩
    (∃ method m, s.method = .ok method ∧
      Steps (Code.Machine.step method) 3 (method.start σ) m ∧
      ∃ v : Value, v.ty = .int ∧ m.stack = Code.pushed v []) ∧
    ∃ n o, s.evaluate .compiled σ n = some (.ended o) ∧
      ∀ error τ, o = .error error τ → error.Permitted := by
  intro s σ
  have h : s.Clean := .first (by decide +kernel)
  have hσ : σ.Sound := ⟨nofun, nofun⟩
  obtain ⟨hends, -, hcodes⟩ := evaluate_sound h hσ
  constructor
  · let code : List Code.Instr := [.loadInt 1, .loadInt 2, .add]
    let method : Code.Method := ⟨code ++ [.box .int, .storeLocal 0, .loadLocal 0, .ret], []⟩
    have hmethod : s.method = .ok method := by decide +kernel
    have hsum : (s.lowered.head?.bind Typed.Stmt.expr?).map
        (fun e => (Code.exprCode Code.Frame.empty e, e.ty)) = some (.ok code, .int) := by
      decide +kernel
    obtain ⟨e, he, hshown⟩ := Option.map_eq_some_iff.1 hsum
    obtain ⟨hcode, hty⟩ := Prod.mk.inj hshown
    obtain ⟨st, hst, hwhole⟩ := Option.bind_eq_some_iff.1 he
    have hoccurs : Typed.Occurs s.lowered e :=
      ⟨st, List.mem_of_mem_head? hst, e, hwhole, .self⟩
    have hsteps : Steps (Code.Machine.step method) 3 (method.start σ) _ :=
      .head rfl (.head rfl (.single rfl))
    have hat : (method.start σ).AtCode method e 3 :=
      ⟨Code.Frame.empty, code, rfl, hcode, rfl, Nat.le_refl 0,
        (Placed.whole method.instructions).left⟩
    obtain ⟨-, v, hv, hstack⟩ := hcodes method _ e 3 _ hmethod ⟨0, .refl⟩ hoccurs hat hsteps
    exact ⟨method, _, hmethod, hsteps, v, hv.trans hty, hstack⟩
  · have hrun : (s.evaluate .compiled σ 10).isSome = true := by decide +kernel
    obtain ⟨a, ha⟩ := Option.isSome_iff_exists.1 hrun
    obtain ⟨o, rfl, -, herror⟩ := hends .compiled 10 a ha
    refine ⟨10, o, ha, fun error τ heq => ?_⟩
    rcases herror error τ heq with hpermitted | ⟨-, hmany, -⟩
    · exact hpermitted
    · exact absurd hmany (by decide +kernel)

/-- A clean snippet with labels that lowering can number can be too crowded for a method, which is
    what its compiled evaluation ends with. -/
theorem evaluate_sound_fails :
    let s := crowded 2147483647
    let σ : Store := ⟨Bindings.empty, Console.start [] fun _ => 0⟩
    s.Clean ∧ s.statement.labelCount < UInt32.size ∧ σ.Sound ∧ ∀ n, s.evaluate .compiled σ n =
      some (.ended (.error (.internal (.invalidProgram .tooManyVariables)) σ)) := by
  intro s σ
  have h : s.Clean := clean_crowded 2147483647
  have hlabels : s.statement.labelCount = 4294967295 := labelCount_crowded 2147483647
  have hslots : 2147483649 ≤ s.slots.length := le_length_slots_crowded (by decide)
  exact ⟨h, hlabels ▸ by decide, ⟨nofun, nofun⟩, h.compiled_refused (by omega)⟩

end Snippet

end SnippetLang
