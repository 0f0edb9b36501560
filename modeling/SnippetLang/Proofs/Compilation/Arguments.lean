import SnippetLang.Proofs.Compilation.Computing
import SnippetLang.Proofs.Compilation.Instructions
import SnippetLang.Proofs.Compilation.Items

/-!
# Arguments and slots

The two ends of a compiled method.  Its opening takes every variable out of the argument array into
its slot, which works for values of the types of the variables; its closing puts every variable back
and returns the result.
-/

namespace SnippetLang.Code

open Machine (step)

/-- The instructions that bring an argument into its slot. -/
def fetch (k : Nat) (x : Variable) : List Instr :=
  [.loadArguments, .loadInt (Int32.ofNat k), .loadElement, .unbox x.ty, .storeLocal (k + 1)]

/-- The instructions that bring a slot back into its argument. -/
def putBack (k : Nat) (x : Variable) : List Instr :=
  [.loadArguments, .loadInt (Int32.ofNat k), .loadLocal (k + 1), .box x.ty, .storeElement]

theorem prologue_cons (k : Nat) (x : Variable) (rest : List Variable) :
    Frame.prologue k (x :: rest) = fetch k x ++ Frame.prologue (k + 1) rest := rfl

theorem epilogue_cons (k : Nat) (x : Variable) (rest : List Variable) :
    Frame.epilogue k (x :: rest) = putBack k x ++ Frame.epilogue (k + 1) rest := rfl

/-- The opening brings the arguments into their slots one by one. -/
theorem opening_eq (vars : List Variable) :
    opening vars = vars.zipIdx.flatMap fun p => fetch p.2 p.1 := by
  suffices h : ∀ k, Frame.prologue k vars = (vars.zipIdx k).flatMap fun p => fetch p.2 p.1 from h 0
  induction vars with
  | nil => exact fun _ => rfl
  | cons x rest ih =>
    intro k
    rw [prologue_cons, ih, List.zipIdx_cons, List.flatMap_cons]

/-- The closing brings the slots back into the arguments one by one, and returns the result. -/
theorem closing_eq (vars : List Variable) :
    closing vars =
      (vars.zipIdx.flatMap fun p => putBack p.2 p.1) ++ [.loadLocal resultSlot, .ret] := by
  suffices h : ∀ k, Frame.epilogue k vars = (vars.zipIdx k).flatMap fun p => putBack p.2 p.1 by
    rw [closing, h 0]
  induction vars with
  | nil => exact fun _ => rfl
  | cons x rest ih =>
    intro k
    rw [epilogue_cons, ih, List.zipIdx_cons, List.flatMap_cons]

theorem length_prologue (k : Nat) (vars : List Variable) :
    (Frame.prologue k vars).length = 5 * vars.length := by
  induction vars generalizing k with
  | nil => rfl
  | cons x rest ih =>
    rw [prologue_cons, List.length_append, ih]
    simp only [fetch, List.length_cons, List.length_nil]
    omega

theorem length_epilogue (k : Nat) (vars : List Variable) :
    (Frame.epilogue k vars).length = 5 * vars.length := by
  induction vars generalizing k with
  | nil => rfl
  | cons x rest ih =>
    rw [epilogue_cons, List.length_append, ih]
    simp only [putBack, List.length_cons, List.length_nil]
    omega

section

variable {method : Method} {safe : Machine → Prop} {m : Machine} {k : Nat} {x : Variable}
  {v : Value} {i : Nat} {locals : List Cell} {args : List Value} {element : Option Nat}
  {console : Console}

theorem through_fetch (element : Option Nat) (console : Console)
    (hp : Placed method.instructions i (fetch k x)) (hk : k < 2147483648)
    (hv : args[k]? = some v) (hty : v.ty = x.ty) (hlocal : k + 1 < locals.length)
    (hsafe : ∀ m : Machine, m.index < i + 5 → safe m) :
    Through (step method) safe 5 ⟨i, [], locals, args, element, console⟩
      ⟨i + 5, [], locals.set (k + 1) (.ofValue v), args, some k, console⟩ := by
  have hbound : ∀ j, j < 5 → i + j < i + 5 := by
    intro j hj
    exact Nat.add_lt_add_left hj i
  unfold fetch at hp
  rw [← hty] at hp
  refine .head (hsafe _ (hbound 0 (by decide))) (step_of_execute hp.head rfl) ?_
  refine .head (hsafe _ (hbound 1 (by decide))) (step_of_execute hp.tail.head rfl) ?_
  refine .head (hsafe _ (hbound 2 (by decide)))
    (step_of_execute hp.tail.tail.head (execute_loadElement hk rfl hv)) ?_
  refine .head (hsafe _ (hbound 3 (by decide)))
    (step_of_execute hp.tail.tail.tail.head (execute_unbox rfl)) ?_
  exact .single (hsafe _ (hbound 4 (by decide)))
    (step_of_execute hp.tail.tail.tail.tail.head (execute_storeLocal hlocal rfl))

theorem through_putBack (element : Option Nat) (hp : Placed method.instructions i (putBack k x))
    (hk : k < 2147483648) (hlocal : locals[k + 1]? = some (.ofValue v)) (hty : v.ty = x.ty)
    (hv : v.ty.Named) (hlength : k < args.length)
    (hsafe : ∀ m : Machine, m.locals = locals → m.console = console → safe m) :
    Through (step method) safe 5 ⟨i, [], locals, args, element, console⟩
      ⟨i + 5, [], locals, args.set k v, element, console⟩ := by
  unfold putBack at hp
  rw [← hty] at hp
  refine .head (hsafe _ rfl rfl) (step_of_execute hp.head rfl) ?_
  refine .head (hsafe _ rfl rfl) (step_of_execute hp.tail.head rfl) ?_
  refine .head (hsafe _ rfl rfl) (step_of_execute hp.tail.tail.head (execute_loadLocal hlocal)) ?_
  refine .head (hsafe _ rfl rfl)
    (step_of_execute hp.tail.tail.tail.head (execute_box rfl hv)) ?_
  exact .single (hsafe _ rfl rfl)
    (step_of_execute hp.tail.tail.tail.tail.head (execute_storeElement hk rfl hlength))

/-- The opening brings the variables from the arguments into their slots, one after the other. -/
theorem through_prologue {vars : List Variable} {b : Bindings}
    (hfits : vars.length ≤ 2147483648) (htyped : ∀ x ∈ vars, (b.read x).ty = x.ty)
    (before rest : List Variable) (hvars : vars = before ++ rest) (i : Nat)
    (element : Option Nat) (hp : Placed method.instructions i (Frame.prologue before.length rest))
    (hsafe : ∀ m : Machine, m.index < i + 5 * rest.length → safe m) :
    ∃ element', Through (step method) safe (5 * rest.length)
      ⟨i, [], .null :: (cellsOf b before ++ rest.map fun _ => .null), vars.map b.read, element,
        console⟩
      ⟨i + 5 * rest.length, [], .null :: cellsOf b vars, vars.map b.read, element', console⟩ := by
  induction rest generalizing before i element with
  | nil =>
    rw [List.append_nil] at hvars
    subst hvars
    refine ⟨element, ?_⟩
    simp only [List.map_nil, List.append_nil, List.length_nil, Nat.mul_zero, Nat.add_zero]
    exact .refl
  | cons x rest ih =>
    have hlength : vars.length = before.length + rest.length + 1 := by simp [hvars, Nat.add_assoc]
    have hread : (vars.map b.read)[before.length]? = some (b.read x) := by simp [hvars]
    have hx : (b.read x).ty = x.ty := htyped x (by simp [hvars])
    have hlocal : before.length + 1 <
        (.null :: (cellsOf b before ++ .null :: rest.map fun _ => .null)).length := by
      simp [cellsOf]
    have hset : (.null :: (cellsOf b before ++ .null :: rest.map fun _ => .null)).set
        (before.length + 1) (.ofValue (b.read x)) =
          .null :: (cellsOf b (before ++ [x]) ++ rest.map fun _ => .null) := by
      simp [cellsOf]
    rw [prologue_cons] at hp
    have hrest : Placed method.instructions (i + 5)
        (Frame.prologue (before ++ [x]).length rest) := by
      simpa [fetch] using hp.right
    have hfirst := through_fetch element console hp.left (by omega) hread hx hlocal
      fun m hm => hsafe m (by rw [List.length_cons]; omega)
    rw [hset] at hfirst
    obtain ⟨element', hothers⟩ := ih (before ++ [x]) (by simp [hvars]) (i + 5) (some before.length)
      hrest fun m hm => hsafe m (by rw [List.length_cons]; omega)
    have hsum : 5 * (rest.length + 1) = 5 + 5 * rest.length := by omega
    refine ⟨element', ?_⟩
    rw [List.length_cons, hsum, ← Nat.add_assoc]
    exact hfirst.trans hothers

/-- The closing brings the variables from their slots back into the arguments. -/
theorem through_epilogue {vars : List Variable} {b : Bindings} {result : Cell}
    (hfits : vars.length ≤ 2147483648) (htyped : ∀ x ∈ vars, (b.read x).ty = x.ty)
    (hnamed : ∀ x ∈ vars, x.ty.Named)
    (before rest : List Variable) (hvars : vars = before ++ rest) (i : Nat) (args : List Value)
    (hargs : args.length = rest.length)
    (hp : Placed method.instructions i (Frame.epilogue before.length rest))
    (hsafe : ∀ m : Machine, m.locals = result :: cellsOf b vars → m.console = console → safe m) :
    Through (step method) safe (5 * rest.length)
      ⟨i, [], result :: cellsOf b vars, before.map b.read ++ args, element, console⟩
      ⟨i + 5 * rest.length, [], result :: cellsOf b vars, vars.map b.read, element, console⟩ := by
  induction rest generalizing before i args with
  | nil =>
    rw [List.append_nil] at hvars
    subst hvars
    obtain rfl := List.eq_nil_of_length_eq_zero hargs
    simp only [List.append_nil, List.length_nil, Nat.mul_zero, Nat.add_zero]
    exact .refl
  | cons x rest ih =>
    obtain ⟨old, args, rfl⟩ := List.exists_cons_of_length_eq_add_one hargs
    have hlength : vars.length = before.length + rest.length + 1 := by simp [hvars, Nat.add_assoc]
    have hx : x ∈ vars := by simp [hvars]
    have hty := htyped x hx
    have hlocal : (result :: cellsOf b vars)[before.length + 1]? = some (.ofValue (b.read x)) := by
      simp [hvars, cellsOf]
    have hset : (before.map b.read ++ old :: args).set before.length (b.read x) =
        (before ++ [x]).map b.read ++ args := by
      simp
    rw [epilogue_cons] at hp
    have hrest : Placed method.instructions (i + 5)
        (Frame.epilogue (before ++ [x]).length rest) := by
      simpa [putBack] using hp.right
    have hlast : before.length < (before.map b.read ++ old :: args).length := by
      simp
    have hfirst := through_putBack element hp.left (by omega) hlocal hty (hty ▸ hnamed x hx) hlast
      hsafe
    rw [hset] at hfirst
    have hothers := ih (before ++ [x]) (by simp [hvars]) (i + 5) args (by simpa using hargs) hrest
    have hsum : 5 * (rest.length + 1) = 5 + 5 * rest.length := by omega
    rw [List.length_cons, hsum, ← Nat.add_assoc]
    exact hfirst.trans hothers

end

end SnippetLang.Code
