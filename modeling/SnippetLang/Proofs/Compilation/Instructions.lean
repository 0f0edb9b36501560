import SnippetLang.Code.Machine
import SnippetLang.Proofs.Safety.Values

/-!
# What instructions do

The actions of the machine when what they ask for is there: a cell of the right kind on the stack, a
slot, an argument.  An action that goes on with what another one answers is taken apart at the bind.
-/

namespace SnippetLang.Code

open Machine (Action execute)

theorem action_bind_of_ok {α β : Type} {p : Action α} {f : α → Action β} {a : α} {m m' : Machine}
    (h : p m = .ok a m') : (p >>= f) m = f a m' := by
  simp only [bind, EStateM.bind, h]

theorem get_eq (m : Machine) : (get : Action Machine) m = .ok m m := rfl

/-- The stack with a value on it, or as it is for the value that is none. -/
def pushed (v : Value) (stack : List Cell) : List Cell :=
  if v.ty = .void then stack else .ofValue v :: stack

theorem pushed_of_named {v : Value} (h : v.ty.Named) (stack : List Cell) :
    pushed v stack = .ofValue v :: stack := if_neg h.ne_void

section

variable {vars : List Variable} {m m' : Machine} {rest : List Cell} {c : Cell} {v : Value}
  {slot k : Nat}

/-! ### The stack -/

theorem pop_eq (hm : m.stack = c :: rest) : Machine.pop m = .ok c { m with stack := rest } := by
  obtain ⟨index, cells, locals, arguments, element, console⟩ := m
  obtain rfl : cells = c :: rest := hm
  rfl

theorem popIndex_eq (hk : k < 2147483648) (hm : m.stack = .int (Int32.ofNat k) :: rest) :
    Machine.popIndex m = .ok k { m with stack := rest } := by
  have hint : (Int32.ofNat k).toInt = k := Int32.toInt_ofNat_of_lt hk
  have hneg : ¬ Int32.ofNat k < 0 := by
    rw [Int32.lt_iff_toInt_lt, hint]
    simp
  have hpop : Machine.popInt m = .ok (Int32.ofNat k) { m with stack := rest } :=
    action_bind_of_ok (pop_eq hm)
  refine (action_bind_of_ok hpop).trans ?_
  rw [if_neg hneg, hint]
  rfl

/-- A cell of a value gives the value back as one of its type. -/
theorem popValue_eq (hm : m.stack = .ofValue v :: rest) (hv : v.ty.Named) :
    Machine.popValue v.ty m = .ok v { m with stack := rest } := by
  have hne : v ≠ .void := by
    rintro rfl
    exact hv.ne_void rfl
  refine (action_bind_of_ok (pop_eq hm)).trans ?_
  simp only [Machine.valueOf, Cell.toValue?_ofValue hne]
  rfl

/-- Arguments come off the stack in their order, the last one first. -/
theorem popValues_eq {vs : List Value} (hvs : ∀ v ∈ vs, v.ty.Named)
    (hm : m.stack = (vs.map .ofValue).reverse ++ rest) :
    Machine.popValues (vs.map (·.ty)) m = .ok vs { m with stack := rest } := by
  induction vs generalizing rest with
  | nil =>
    obtain rfl : m.stack = rest := hm
    rfl
  | cons v vs ih =>
    obtain ⟨hv, hvs⟩ := List.forall_mem_cons.1 hvs
    have hrest : Machine.popValues (vs.map (·.ty)) m =
        .ok vs { m with stack := .ofValue v :: rest } := ih hvs (by simp [hm])
    have htop := popValue_eq (m := { m with stack := .ofValue v :: rest }) rfl hv
    exact (action_bind_of_ok hrest).trans (action_bind_of_ok htop)

/-! ### Slots -/

theorem readLocal_eq (h : m.locals[slot]? = some c) : Machine.readLocal slot m = .ok c m := by
  refine (action_bind_of_ok (get_eq m)).trans ?_
  rw [h]
  rfl

theorem writeLocal_eq (h : slot < m.locals.length) (c : Cell) :
    Machine.writeLocal slot c m = .ok () { m with locals := m.locals.set slot c } := by
  refine (action_bind_of_ok (get_eq m)).trans ?_
  rw [if_pos h]
  rfl

theorem execute_loadLocal (h : m.locals[slot]? = some c) :
    execute vars (.loadLocal slot) m = .ok none { m with stack := c :: m.stack } :=
  action_bind_of_ok (readLocal_eq h)

theorem execute_storeLocal (h : slot < m.locals.length) (hm : m.stack = c :: rest) :
    execute vars (.storeLocal slot) m =
      .ok none { m with stack := rest, locals := m.locals.set slot c } := by
  have hwrite := writeLocal_eq (m := { m with stack := rest }) h c
  exact (action_bind_of_ok (pop_eq hm)).trans (action_bind_of_ok hwrite)

/-! ### Arguments -/

theorem readArgument_eq (hv : m.arguments[k]? = some v) :
    Machine.readArgument k m = .ok v { m with lastElement := some k } := by
  refine (action_bind_of_ok (get_eq m)).trans ?_
  rw [hv]
  rfl

theorem writeArgument_eq (hk : k < m.arguments.length) (v : Value) :
    Machine.writeArgument k v m = .ok () { m with arguments := m.arguments.set k v } := by
  refine (action_bind_of_ok (get_eq m)).trans ?_
  rw [if_pos hk]
  rfl

theorem execute_loadElement (hk : k < 2147483648)
    (hm : m.stack = .int (Int32.ofNat k) :: .arguments :: rest) (hv : m.arguments[k]? = some v) :
    execute vars .loadElement m =
      .ok none { m with stack := .boxed v :: rest, lastElement := some k } := by
  have hindex := popIndex_eq hk hm
  have hread := readArgument_eq (m := { m with stack := rest }) hv
  exact (action_bind_of_ok hindex).trans ((action_bind_of_ok rfl).trans (action_bind_of_ok hread))

theorem execute_storeElement (hk : k < 2147483648)
    (hm : m.stack = .boxed v :: .int (Int32.ofNat k) :: .arguments :: rest)
    (hlength : k < m.arguments.length) :
    execute vars .storeElement m =
      .ok none { m with stack := rest, arguments := m.arguments.set k v } := by
  have hpop := pop_eq hm
  have hindex := popIndex_eq
    (m := { m with stack := .int (Int32.ofNat k) :: .arguments :: rest }) hk rfl
  have hwrite := writeArgument_eq (m := { m with stack := rest }) hlength v
  exact (action_bind_of_ok hpop).trans ((action_bind_of_ok hindex).trans
    ((action_bind_of_ok rfl).trans (action_bind_of_ok hwrite)))

/-- A box is opened by the type of the value in it. -/
theorem execute_unbox (hm : m.stack = .boxed v :: rest) :
    execute vars (.unbox v.ty) m = .ok none { m with stack := .ofValue v :: rest } := by
  have hunbox : Machine.unbox vars v.ty m = .ok () { m with stack := .ofValue v :: rest } := by
    refine (action_bind_of_ok (pop_eq hm)).trans ?_
    simp only [if_true]
    rfl
  exact action_bind_of_ok hunbox

theorem execute_box (hm : m.stack = .ofValue v :: rest) (hv : v.ty.Named) :
    execute vars (.box v.ty) m = .ok none { m with stack := .boxed v :: rest } :=
  action_bind_of_ok (popValue_eq hm hv)

/-! ### Numbers and routines -/

theorem execute_div {n d : Int32} (hm : m.stack = .int d :: .int n :: rest) (hd : d ≠ 0) :
    execute vars .div m = .ok none { m with stack := .int (n / d) :: rest } := by
  have hright : Machine.popInt m = .ok d { m with stack := .int n :: rest } :=
    action_bind_of_ok (pop_eq hm)
  have hdivide : Machine.divide m = .ok () { m with stack := .int (n / d) :: rest } := by
    refine (action_bind_of_ok hright).trans ((action_bind_of_ok rfl).trans ?_)
    rw [if_neg hd]
    rfl
  exact action_bind_of_ok hdivide

theorem execute_call_ok {r : Routine} {vs : List Value} {console : Console}
    (hpop : Machine.popValues r.parameters m = .ok vs m')
    (hinvoke : r.invoke vs m'.console = (.ok v, console)) (hv : v.ty = r.result) :
    execute vars (.call r) m =
      .ok none { m' with stack := pushed v m'.stack, console := console } := by
  simp only [execute, Machine.call, bind, EStateM.bind, hpop, Machine.onConsole, hinvoke]
  unfold pushed
  by_cases hvoid : v.ty = .void
  · rw [if_pos hvoid, if_pos (hv ▸ hvoid)]
    rfl
  · rw [if_neg hvoid, if_neg (hv ▸ hvoid)]
    rfl

theorem execute_call_error {r : Routine} {vs : List Value} {console : Console} {error : RunError}
    (hpop : Machine.popValues r.parameters m = .ok vs m')
    (hinvoke : r.invoke vs m'.console = (.error error, console)) :
    execute vars (.call r) m = .error error { m' with console := console } := by
  simp only [execute, Machine.call, bind, EStateM.bind, hpop, Machine.onConsole, hinvoke]

end

end SnippetLang.Code
