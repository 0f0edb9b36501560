import SnippetLang.Proofs.Typing.Rules
import SnippetLang.Typed.Evaluation

/-!
# Typed values and stores

A store is sound when every variable is bound to a value of its type and every line of input is
text.  Reading, writing, operators and routines keep to the types: from values of the right types
they make a value of the right type or end in one of the three errors that programs can cause.
-/

namespace SnippetLang

/-! ### Values by their types -/

namespace Value

variable {v : Value}

theorem bool_of_ty (h : v.ty = .bool) : ∃ b, v = .bool b := by
  cases v <;> simp_all [ty]

theorem int_of_ty (h : v.ty = .int) : ∃ n, v = .int n := by
  cases v <;> simp_all [ty]

theorem string_of_ty (h : v.ty = .string) : ∃ s, v = .string s := by
  cases v <;> simp_all [ty]

theorem void_of_ty (h : v.ty = .void) : v = .void := by
  cases v <;> simp_all [ty]

end Value

/-! ### Sound stores -/

/-- Every variable is bound to a value of its type. -/
def Bindings.Typed (b : Bindings) : Prop := ∀ entry ∈ b.entries, entry.2.ty = entry.1.ty

theorem Bindings.typed_empty : Bindings.empty.Typed := List.forall_mem_nil _

namespace Bindings.Typed

variable {b : Bindings} {x : Variable} {v : Value}

theorem find? (h : b.Typed) (hv : b.find? x = some v) : v.ty = x.ty := by
  obtain ⟨entry, hentry, rfl⟩ := Option.map_eq_some_iff.1 hv
  have hsame := List.find?_some hentry
  rw [h entry (List.mem_of_find?_eq_some hentry)]
  exact (Variable.same_iff.1 hsame).2

/-- A variable reads as a value of its type, bound or not. -/
theorem read (h : b.Typed) (hx : x.ty ≠ .error) : (b.read x).ty = x.ty := by
  unfold Bindings.read
  cases hv : b.find? x with
  | none => exact Ty.ty_default hx
  | some v => exact h.find? hv

theorem set (h : b.Typed) (hv : v.ty = x.ty) : (b.set x v).Typed := by
  obtain ⟨entries⟩ := b
  induction entries with
  | nil => simpa [Bindings.Typed, Bindings.set, setEntry] using hv
  | cons entry rest ih =>
    have hrest : Typed ⟨rest⟩ := fun e he => h e (List.mem_cons_of_mem entry he)
    intro e he
    simp only [Bindings.set, setEntry] at he
    split at he
    · next hsame =>
      rcases List.mem_cons.1 he with rfl | he
      · exact hv.trans (Variable.same_iff.1 hsame).2.symm
      · exact hrest e he
    · rcases List.mem_cons.1 he with rfl | he
      · exact h e (List.mem_cons_self ..)
      · exact ih hrest e he

theorem setAll (h : b.Typed) {pairs : List (Variable × Value)}
    (hpairs : ∀ pair ∈ pairs, pair.2.ty = pair.1.ty) : (b.setAll pairs).Typed := by
  induction pairs generalizing b with
  | nil => exact h
  | cons pair rest ih =>
    have hrest : ∀ p ∈ rest, p.2.ty = p.1.ty := by
      intro p hp
      exact hpairs p (List.mem_cons_of_mem pair hp)
    exact ih (h.set (hpairs pair (List.mem_cons_self ..))) hrest

end Bindings.Typed

/-- Every line still to be read is text. -/
def Console.Buffered (c : Console) : Prop := ∀ line ∈ c.input, line ≠ .undecodable

/-- A store whose variables have values of their types and whose input is text. -/
structure Store.Sound (σ : Store) : Prop where
  bindings : σ.bindings.Typed
  console : σ.console.Buffered

/-- A store whose variables have values of their types and whose input is text if it is said to be
    legible. -/
structure Store.SoundIf (legible : Prop) (σ : Store) : Prop where
  bindings : σ.bindings.Typed
  console : legible → σ.console.Buffered

theorem Store.Sound.soundIf {σ : Store} {legible : Prop} (h : σ.Sound) : σ.SoundIf legible :=
  ⟨h.bindings, fun _ => h.console⟩

/-- A store whose variables have values of their types, with any input. -/
abbrev Store.Typed (σ : Store) : Prop := σ.SoundIf False

/-- The errors that programs can cause. -/
inductive RunError.Permitted : RunError → Prop where
  | divisionByZero : Permitted .divisionByZero
  | invalidConversion {text : String} {target : Ty} : Permitted (.invalidConversion text target)
  | negativeBound {n : Int32} : Permitted (.negativeBound n)

/-! ### Computations that end safely -/

/-- A computation ends with something good or, if the input is legible, in an error that programs can
    cause, and leaves a sound store behind in both cases. -/
inductive EndsSafely (legible : Prop) {α : Type} (good : α → Prop) :
    EStateM.Result RunError Store α → Prop where
  | ok {a : α} {σ : Store} : good a → σ.SoundIf legible → EndsSafely legible good (.ok a σ)
  | error {error : RunError} {σ : Store} :
      (legible → error.Permitted) → σ.SoundIf legible → EndsSafely legible good (.error error σ)

namespace EndsSafely

variable {legible : Prop} {α β : Type} {good : α → Prop} {good' : β → Prop} {σ : Store}

theorem bind {x : Eval α} {f : α → Eval β} (hx : EndsSafely legible good (x σ))
    (hf : ∀ a τ, good a → τ.SoundIf legible → EndsSafely legible good' (f a τ)) :
    EndsSafely legible good' ((x >>= f) σ) := by
  simp only [Bind.bind, EStateM.bind]
  generalize x σ = r at hx
  cases hx with
  | ok ha hτ => exact hf _ _ ha hτ
  | error he hτ => exact .error he hτ

theorem of_ok {r : EStateM.Result RunError Store α} {a : α} {τ : Store}
    (h : EndsSafely legible good r) (hr : r = .ok a τ) : good a ∧ τ.SoundIf legible := by
  subst hr
  cases h with
  | ok ha hτ => exact ⟨ha, hτ⟩

theorem of_error {r : EStateM.Result RunError Store α} {error : RunError} {τ : Store}
    (h : EndsSafely legible good r) (hr : r = .error error τ) :
    (legible → error.Permitted) ∧ τ.SoundIf legible := by
  subst hr
  cases h with
  | error he hτ => exact ⟨he, hτ⟩

end EndsSafely

/-! ### Operators -/

namespace Typed

variable {legible : Prop} {σ : Store} {v w : Value}

theorem needBool_safe (hσ : σ.SoundIf legible) (hv : v.ty = .bool) :
    EndsSafely legible (fun _ => True) (Eval.lift (needBool v) σ) := by
  obtain ⟨b, rfl⟩ := Value.bool_of_ty hv
  exact .ok trivial hσ

theorem applyUnary_safe (hσ : σ.SoundIf legible) {row : UnaryOperator}
    (hrow : row ∈ UnaryOperator.table) (hv : v.ty = row.operand) :
    EndsSafely legible (·.ty = row.result) (Eval.lift (applyUnary row v) σ) := by
  simp only [UnaryOperator.table, List.mem_cons, List.not_mem_nil, or_false] at hrow
  rcases hrow with rfl | rfl | rfl | rfl
  · obtain ⟨b, rfl⟩ := Value.bool_of_ty hv
    exact .ok rfl hσ
  all_goals
    obtain ⟨n, rfl⟩ := Value.int_of_ty hv
    exact .ok rfl hσ

/-- Division is the one operator that can fail. -/
theorem divide_safe (hσ : σ.SoundIf legible) (n m : Int32) :
    EndsSafely legible (·.ty = .int) (Eval.lift (divide (.int n) (.int m)) σ) := by
  by_cases hm : m = 0
  · subst hm
    exact .error (fun _ => .divisionByZero) hσ
  · have heq : divide (.int n) (.int m) = .ok (.int (n / m)) := by
      simp only [divide, needInt, Bind.bind, Except.bind, if_neg hm]
      rfl
    rw [heq]
    exact .ok rfl hσ

theorem applyBinary_safe (hσ : σ.SoundIf legible) {row : BinaryOperator}
    (hrow : row ∈ BinaryOperator.table) (hv : v.ty = row.left) (hw : w.ty = row.right) :
    EndsSafely legible (·.ty = row.result) (Eval.lift (applyBinary row v w) σ) := by
  simp only [BinaryOperator.table, List.mem_cons, List.not_mem_nil, or_false] at hrow
  rcases hrow with rfl | rfl | rfl | rfl | rfl | rfl | rfl | rfl | rfl | rfl | rfl | rfl | rfl |
    rfl | rfl | rfl | rfl | rfl | rfl | rfl | rfl | rfl | rfl
  case inr.inr.inr.inl =>
    obtain ⟨n, rfl⟩ := Value.int_of_ty hv
    obtain ⟨m, rfl⟩ := Value.int_of_ty hw
    exact divide_safe hσ n m
  -- the other rows of numbers, those of truth values, and those of texts
  all_goals first
    | obtain ⟨n, rfl⟩ := Value.int_of_ty hv
      obtain ⟨m, rfl⟩ := Value.int_of_ty hw
      exact .ok rfl hσ
    | obtain ⟨b, rfl⟩ := Value.bool_of_ty hv
      obtain ⟨c, rfl⟩ := Value.bool_of_ty hw
      exact .ok rfl hσ
    | obtain ⟨s, rfl⟩ := Value.string_of_ty hv
      obtain ⟨t, rfl⟩ := Value.string_of_ty hw
      exact .ok rfl hσ

end Typed

/-! ### Routines -/

namespace Console

theorem Buffered.drop {c : Console} {line : InputLine} {rest : List InputLine} (h : c.Buffered)
    (hc : c.input = line :: rest) : Buffered { c with input := rest } := by
  intro l hl
  exact h l (hc ▸ List.mem_cons_of_mem line hl)

end Console

namespace Routine

/-- A function has a routine, with the types that the function promises. -/
theorem ofFunction_of_mem {f : Function} (h : f ∈ Function.all) :
    ∃ r, ofFunction f = .ok r ∧ r.parameters = f.parameters.map (·.ty) ∧ r.result = f.ty := by
  simp only [Function.all, List.mem_cons, List.not_mem_nil, or_false] at h
  rcases h with rfl | rfl | rfl
  · exact ⟨.print, rfl, rfl, rfl⟩
  · exact ⟨.input, rfl, rfl, rfl⟩
  · exact ⟨.rnd, rfl, rfl, rfl⟩

/-- A conversion has a routine, with the types that it is between. -/
theorem ofConversion_of_converts {s t : Ty} (h : Typing.Converts s t) :
    ∃ r, ofConversion s t = .ok r ∧ r.parameters = [s] ∧ r.result = t := by
  cases h with
  | intToString => exact ⟨.intToString, rfl, rfl, rfl⟩
  | boolToString => exact ⟨.boolToString, rfl, rfl, rfl⟩
  | stringToInt => exact ⟨.stringToInt, rfl, rfl, rfl⟩
  | stringToBool => exact ⟨.stringToBool, rfl, rfl, rfl⟩

/-- No routine takes a value of a type that cannot be written down. -/
theorem parameters_named (r : Routine) : ∀ t ∈ r.parameters, t.Named := by
  cases r <;> decide

variable {legible : Prop} {σ : Store}

theorem input_safe (hσ : σ.SoundIf legible) :
    EndsSafely legible (·.ty = .string) (Eval.onConsole (input.invoke []) σ) := by
  simp only [Eval.onConsole, invoke, Console.readLine]
  cases hinput : σ.console.input with
  | nil => exact .ok rfl hσ
  | cons line rest =>
    cases line with
    | text s => exact .ok rfl ⟨hσ.bindings, fun hlegible => (hσ.console hlegible).drop hinput⟩
    | undecodable =>
      have hmem : InputLine.undecodable ∈ σ.console.input := hinput ▸ List.mem_cons_self ..
      refine .error (fun hlegible => absurd rfl (hσ.console hlegible _ hmem)) ⟨hσ.bindings, ?_⟩
      exact fun hlegible => (hσ.console hlegible).drop hinput

theorem rnd_safe (hσ : σ.SoundIf legible) (max : Int32) :
    EndsSafely legible (·.ty = .int) (Eval.onConsole (rnd.invoke [.int max]) σ) := by
  simp only [Eval.onConsole, invoke, random]
  by_cases hneg : max < 0
  · simp only [if_pos hneg]
    exact .error (fun _ => .negativeBound) hσ
  · by_cases hzero : max = 0
    · simp only [if_neg hneg, if_pos hzero]
      exact .ok rfl hσ
    · simp only [if_neg hneg, if_neg hzero]
      exact .ok rfl ⟨hσ.bindings, hσ.console⟩

theorem stringToBool_safe (hσ : σ.SoundIf legible) (s : String) :
    EndsSafely legible (·.ty = .bool) (Eval.onConsole (stringToBool.invoke [.string s]) σ) := by
  simp only [Eval.onConsole, invoke]
  cases readBool? s with
  | some b => exact .ok rfl hσ
  | none => exact .error (fun _ => .invalidConversion) hσ

theorem stringToInt_safe (hσ : σ.SoundIf legible) (s : String) :
    EndsSafely legible (·.ty = .int) (Eval.onConsole (stringToInt.invoke [.string s]) σ) := by
  simp only [Eval.onConsole, invoke]
  cases readInt? s with
  | some n => exact .ok rfl hσ
  | none => exact .error (fun _ => .invalidConversion) hσ

/-- A routine keeps its promises when its arguments have the types of its parameters. -/
theorem invoke_safe (hσ : σ.SoundIf legible) {r : Routine} {args : List Value}
    (hargs : args.map (·.ty) = r.parameters) :
    EndsSafely legible (·.ty = r.result) (Eval.onConsole (r.invoke args) σ) := by
  cases r with
  | input =>
    obtain rfl := List.map_eq_nil_iff.1 hargs
    exact input_safe hσ
  | print =>
    obtain ⟨v, rfl, hv⟩ := List.map_eq_singleton_iff.1 hargs
    obtain ⟨s, rfl⟩ := Value.string_of_ty hv
    exact .ok rfl ⟨hσ.bindings, hσ.console⟩
  | rnd =>
    obtain ⟨v, rfl, hv⟩ := List.map_eq_singleton_iff.1 hargs
    obtain ⟨n, rfl⟩ := Value.int_of_ty hv
    exact rnd_safe hσ n
  | boolToString =>
    obtain ⟨v, rfl, hv⟩ := List.map_eq_singleton_iff.1 hargs
    obtain ⟨b, rfl⟩ := Value.bool_of_ty hv
    exact .ok rfl hσ
  | intToString =>
    obtain ⟨v, rfl, hv⟩ := List.map_eq_singleton_iff.1 hargs
    obtain ⟨n, rfl⟩ := Value.int_of_ty hv
    exact .ok rfl hσ
  | stringToBool =>
    obtain ⟨v, rfl, hv⟩ := List.map_eq_singleton_iff.1 hargs
    obtain ⟨s, rfl⟩ := Value.string_of_ty hv
    exact stringToBool_safe hσ s
  | stringToInt =>
    obtain ⟨v, rfl, hv⟩ := List.map_eq_singleton_iff.1 hargs
    obtain ⟨s, rfl⟩ := Value.string_of_ty hv
    exact stringToInt_safe hσ s

end Routine

end SnippetLang
