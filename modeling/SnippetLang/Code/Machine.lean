import SnippetLang.Code.Method
import SnippetLang.Iteration
import SnippetLang.Routine.Invocation
import SnippetLang.Store

/-!
# Running methods

The stack machine that executes a method, one instruction per step.  Every instruction checks what
it takes off the stack, so a malformed method ends in an internal error and nothing else.

A run begins with the values of the method's variables in the argument array.  When the method
returns, the array is written back into the bindings; when an error ends the run, the bindings stay
as they were, and only the console shows how far it came.
-/

namespace SnippetLang.Code

open InternalError (invalidProgram)

/-- The state of a running method. -/
structure Machine where
  index : Nat                   -- of the instruction to execute next
  stack : List Cell             -- the top first
  locals : List Cell
  arguments : List Value
  lastElement : Option Nat      -- the index of the argument loaded last
  console : Console

namespace Machine

/-- What an instruction does to a machine. -/
abbrev Action := EStateM RunError Machine

/-- Ends the run with a flaw of the method. -/
def fail {α : Type} (flaw : Flaw) : Action α := throw (.internal (invalidProgram flaw))

/-! ### The stack, the slots and the arguments -/

/-- Puts a cell on the stack. -/
def push (c : Cell) : Action Unit := modify fun m => { m with stack := c :: m.stack }

/-- Takes the top cell off the stack. -/
def pop : Action Cell := do
  match (← get).stack with
  | [] => fail .stackUnderflow
  | c :: rest => modifyGet fun m => (c, { m with stack := rest })

/-- Takes a number off the stack. -/
def popInt : Action Int32 := do
  match ← pop with
  | .int n => pure n
  | c => fail (.notAnInt c)

/-- Takes a text off the stack. -/
def popString : Action String := do
  match ← pop with
  | .string s => pure s
  | c => fail (.notAString c)

/-- Takes an index into the argument array off the stack. -/
def popIndex : Action Nat := do
  let n ← popInt
  if n < 0 then fail (.negativeIndex n) else pure n.toInt.toNat

/-- Takes the argument array off the stack. -/
def popArguments : Action Unit := do
  match ← pop with
  | .arguments => pure ()
  | c => fail (.notTheArguments c)

/-- The value of a type that a cell holds. -/
def valueOf (c : Cell) (ty : Ty) : Action Value :=
  match c.toValue? ty with
  | some v => pure v
  | none => fail (.notOfType c ty)

/-- Takes a value of a type off the stack. -/
def popValue (ty : Ty) : Action Value := do valueOf (← pop) ty

/-- Reads a local slot. -/
def readLocal (slot : Nat) : Action Cell := do
  match (← get).locals[slot]? with
  | some c => pure c
  | none => fail (.noLocal slot)

/-- Writes a local slot. -/
def writeLocal (slot : Nat) (c : Cell) : Action Unit := do
  if slot < (← get).locals.length then
    modify fun m => { m with locals := m.locals.set slot c }
  else
    fail (.noLocal slot)

/-- Reads an argument, and notes that it was the last one read. -/
def readArgument (index : Nat) : Action Value := do
  match (← get).arguments[index]? with
  | some v => modifyGet fun m => (v, { m with lastElement := some index })
  | none => fail (.noArgument index)

/-- Writes an argument. -/
def writeArgument (index : Nat) (v : Value) : Action Unit := do
  if index < (← get).arguments.length then
    modify fun m => { m with arguments := m.arguments.set index v }
  else
    fail (.noArgument index)

/-- Goes on at an instruction. -/
def goto (index : Nat) : Action Unit := modify fun m => { m with index := index }

/-! ### Instructions -/

/-- Replaces two numbers by one. -/
def onInts (f : Int32 → Int32 → Int32) : Action Unit := do
  let right ← popInt
  let left ← popInt
  push (.int (f left right))

/-- A truth value as a number. -/
def ofBool (b : Bool) : Int32 := if b then 1 else 0

/-- Replaces two numbers by their quotient. -/
def divide : Action Unit := do
  let right ← popInt
  let left ← popInt
  if right = 0 then throw .divisionByZero else push (.int (left / right))

/-- Takes a boxed value out of its box, if it has the type. -/
def unbox (vars : List Variable) (ty : Ty) : Action Unit := do
  match ← pop with
  | .boxed v =>
    if v.ty = ty then
      push (.ofValue v)
    else
      let read := (← get).lastElement.bind fun index => vars[index]?
      throw (.invalidCast (read.elim "" (·.name)) ty v.ty)
  | c => fail (.unboxOf c)

/-- Takes arguments of these types off the stack, the last one first. -/
def popValues : List Ty → Action (List Value)
  | [] => pure []
  | ty :: rest => do
    let vs ← popValues rest
    let v ← popValue ty
    pure (v :: vs)

/-- Uses the console. -/
def onConsole (f : Console → Except RunError Value × Console) : Action Value := fun m =>
  match f m.console with
  | (.ok v, console) => .ok v { m with console := console }
  | (.error e, console) => .error e { m with console := console }

/-- Runs a routine on arguments from the stack. -/
def call (r : Routine) : Action Unit := do
  let args ← popValues r.parameters
  let v ← onConsole (r.invoke args)
  if r.result = .void then pure () else push (.ofValue v)

/-- Executes an instruction, of which a return answers the result of the method. -/
def execute (vars : List Variable) : Instr → Action (Option Value)
  | .nop => pure none
  | .loadInt n => do push (.int n); pure none
  | .loadString s => do push (.string s); pure none
  | .loadNull => do push .null; pure none
  | .loadLocal slot => do push (← readLocal slot); pure none
  | .storeLocal slot => do writeLocal slot (← pop); pure none
  | .loadArguments => do push .arguments; pure none
  | .loadElement => do
    let index ← popIndex
    popArguments
    push (.boxed (← readArgument index))
    pure none
  | .storeElement => do
    let v ← match ← pop with
      | .boxed v => pure v
      | .null => pure .void
      | c => fail (.storeOf c)
    let index ← popIndex
    popArguments
    writeArgument index v
    pure none
  | .box ty => do push (.boxed (← popValue ty)); pure none
  | .unbox ty => do unbox vars ty; pure none
  | .pop => do let _ ← pop; pure none
  | .add => do onInts (· + ·); pure none
  | .sub => do onInts (· - ·); pure none
  | .mul => do onInts (· * ·); pure none
  | .div => do divide; pure none
  | .and => do onInts (· &&& ·); pure none
  | .or => do onInts (· ||| ·); pure none
  | .xor => do onInts (· ^^^ ·); pure none
  | .not => do push (.int (~~~(← popInt))); pure none
  | .neg => do push (.int (-(← popInt))); pure none
  | .compareEqual => do
    let right ← pop
    let left ← pop
    push (.int (ofBool (left == right)))
    pure none
  | .compareLess => do onInts (fun x y => ofBool (x < y)); pure none
  | .compareGreater => do onInts (fun x y => ofBool (y < x)); pure none
  | .concat => do
    let right ← popString
    let left ← popString
    push (.string (left ++ right))
    pure none
  | .branch target => do goto target; pure none
  | .branchTrue target => do
    if (← popInt) ≠ 0 then goto target
    pure none
  | .branchFalse target => do
    if (← popInt) = 0 then goto target
    pure none
  | .call r => do call r; pure none
  | .ret => do
    match ← pop with
    | .boxed v => pure (some v)
    | .null => pure (some .void)
    | c => fail (.returnOf c)

/-- How a method ended: with its result or an error, and the machine behind it. -/
abbrev Ending := EStateM.Result RunError Machine Value

/-- One step of a method. -/
def step (method : Method) (m : Machine) : Progress Machine Ending :=
  match method.instructions[m.index]? with
  | none => .finished (.error (.internal (invalidProgram (.ranPast m.index))) m)
  | some i =>
    match execute method.vars i { m with index := m.index + 1 } with
    | .ok none m => .running m
    | .ok (some v) m => .finished (.ok v m)
    | .error e m => .finished (.error e m)

end Machine

namespace Method

/-- The machine at the beginning of a method. -/
def start (m : Method) (store : Store) : Machine :=
  { index := 0
    stack := []
    locals := m.locals.map fun _ => .null
    arguments := m.vars.map store.bindings.read
    lastElement := none
    console := store.console }

/-- The end of a run on a store, from the end of its method. -/
def outcome (m : Method) (store : Store) : Machine.Ending → Outcome
  | .ok v final =>
    .ok v ⟨store.bindings.setAll (m.vars.zip final.arguments), final.console⟩
  | .error e final => .error e ⟨store.bindings, final.console⟩

/-- Runs a method from a store, for a number of steps. -/
def run (m : Method) (store : Store) (steps : Nat) : Option Outcome :=
  (runFor (Machine.step m) steps (m.start store)).map (m.outcome store)

end Method

end SnippetLang.Code
