import SnippetLang.Code.Method
import SnippetLang.RunError

/-!
# Method frames

A method under construction.  First every variable gets a local slot, then instructions, marks of
labels and jumps to labels are added in any order, and at the end the jumps are patched and the
method is put together.  `Phase` keeps this order; an operation that would go back is refused and
leaves the frame as it was.

The finished method begins by unboxing every variable from the argument array into its slot and
ends by boxing them back, so the instructions in between see slots alone.  Their branches are
shifted by the length of the beginning.  Those that wait for labels end up at indices of the method;
only a branch that was added with its target can be shifted past the last word.
-/

namespace SnippetLang.Code

open InternalError (invalidProgram unmarkedLabel)

/-- A method under construction. -/
structure Frame where
  phase : Phase
  vars : List Variable                  -- in the order of their slots, from slot 1 on
  body : List Instr
  marks : List (JumpLabel × Nat)        -- labels with the index that they mark, the latest first
  jumps : List (Nat × JumpLabel)        -- indices of branches with the label they wait for

namespace Frame

/-- The frame of a method with nothing in it. -/
def empty : Frame := ⟨.empty, [], [], [], []⟩

/-- Enters a phase, which may be the current one but no earlier one. -/
def advanceTo (f : Frame) (p : Phase) : Except InternalError Frame :=
  if p.rank < f.phase.rank then
    .error (invalidProgram (.phaseOrder f.phase p))
  else
    .ok { f with phase := p }

/-- The slot of a variable, if it has one. -/
def slot? (f : Frame) (x : Variable) : Option Nat := (f.vars.findIdx? (·.same x)).map (· + 1)

/-- The slot of a variable, which must have one. -/
def slot (f : Frame) (x : Variable) : Except InternalError Nat :=
  match f.slot? x with
  | some s => .ok s
  | none => .error (invalidProgram (.noSlot x.name))

/-- Gives a variable a slot, unless it has one. -/
def allocate (f : Frame) (x : Variable) : Except InternalError (Nat × Frame) := do
  let f ← f.advanceTo .allocatingSlots
  match f.slot? x with
  | some s => pure (s, f)
  | none => pure (f.vars.length + 1, { f with vars := f.vars ++ [x] })

/-- Adds an instruction. -/
def emit (f : Frame) (i : Instr) : Except InternalError Frame := do
  let f ← f.advanceTo .emittingCode
  pure { f with body := f.body ++ [i] }

/-- Lets a label mark the next instruction, in place of any instruction that it marked before. -/
def mark (f : Frame) (l : JumpLabel) : Except InternalError Frame := do
  let f ← f.advanceTo .emittingCode
  pure { f with marks := (l, f.body.length) :: f.marks }

/-- Adds a branch that goes where a label is marked in the end. -/
def jump (f : Frame) (i : Instr) (l : JumpLabel) : Except InternalError Frame :=
  match i.target? with
  | none => .error (invalidProgram (.notABranch i))
  | some _ => emit { f with jumps := f.jumps ++ [(f.body.length, l)] } i

/-! ### The finished method -/

/-- The index that a label marks. -/
def marked? (f : Frame) (l : JumpLabel) : Option Nat := (f.marks.find? (·.1 == l)).map (·.2)

/-- Aims the waiting branches at their labels, in a body that begins at an index of the method. -/
def patch (f : Frame) (start : Nat) :
    List (Nat × JumpLabel) → List Instr → Except InternalError (List Instr)
  | [], body => .ok body
  | (index, l) :: rest, body =>
    match f.marked? l with
    | some target =>
      f.patch start rest (body.modify index (Instr.retarget fun _ => target + start))
    | none => .error (unmarkedLabel l)

/-- Unboxes the arguments into their slots, the first of them at an index. -/
def prologue (index : Nat) : List Variable → List Instr
  | [] => []
  | x :: rest =>
    [.loadArguments, .loadInt (Int32.ofNat index), .loadElement, .unbox x.ty,
      .storeLocal (index + 1)] ++ prologue (index + 1) rest

/-- Boxes the slots back into the arguments, the first of them at an index. -/
def epilogue (index : Nat) : List Variable → List Instr
  | [] => []
  | x :: rest =>
    [.loadArguments, .loadInt (Int32.ofNat index), .loadLocal (index + 1), .box x.ty,
      .storeElement] ++ epilogue (index + 1) rest

/-- Puts the method together. -/
def finalize (f : Frame) : Except InternalError Method := do
  let f ← f.advanceTo .patchingJumps
  let opening := prologue 0 f.vars
  let body ← f.patch opening.length f.jumps (f.body.map (Instr.shift opening.length))
  if f.vars.length ≤ 2147483648 then
    let closing := epilogue 0 f.vars ++ [.loadLocal resultSlot, .ret]
    pure ⟨opening ++ body ++ closing, f.vars⟩
  else
    .error (invalidProgram .tooManyVariables)

end Frame

end SnippetLang.Code
