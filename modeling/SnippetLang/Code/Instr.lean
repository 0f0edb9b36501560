import SnippetLang.Routine
import SnippetLang.Text.Quoted

/-!
# Instructions

The instruction set of compiled methods, a small typed stack machine with local slots and one array
of arguments.  Truth values live on its stack as the numbers 0 and 1.  Branches name the index of
the instruction to go on with.  An index is a machine word of 64 bits: code is too short to need
more, and a branch that is given with its target has such a word for it.
-/

namespace SnippetLang.Code

/-- An instruction. -/
inductive Instr where
  | nop
  | loadInt (n : Int32)
  | loadString (s : String)
  | loadNull
  | loadLocal (slot : Nat)
  | storeLocal (slot : Nat)
  | loadArguments              -- the argument array
  | loadElement                -- array, index: the element
  | storeElement               -- array, index, element: nothing
  | box (ty : Ty)
  | unbox (ty : Ty)
  | pop
  | add
  | sub
  | mul
  | div
  | and
  | or
  | xor
  | not
  | neg
  | compareEqual
  | compareLess
  | compareGreater
  | concat
  | branch (target : Nat)
  | branchTrue (target : Nat)
  | branchFalse (target : Nat)
  | call (r : Routine)
  | ret
deriving DecidableEq

/-- The name of a type in listings. -/
def tyName : Ty → String
  | .bool => "bool"
  | .int => "int32"
  | .string => "string"
  | .void => "void"
  | .error => "?"

/-- The index of an instruction in listings. -/
def offsetName (index : Nat) : String := "IL_" ++ Text.hexadecimal 4 index

namespace Instr

/-- Where a branch goes. -/
def target? : Instr → Option Nat
  | branch t | branchTrue t | branchFalse t => some t
  | _ => none

/-- A branch with another target; other instructions stay as they are. -/
def retarget (f : Nat → Nat) : Instr → Instr
  | branch t => branch (f t)
  | branchTrue t => branchTrue (f t)
  | branchFalse t => branchFalse (f t)
  | i => i

/-- Whether the target of a branch is a word.  So it is in every branch that is given as such. -/
def Fits (i : Instr) : Prop := ∀ t ∈ i.target?, t < UInt64.size

instance : DecidablePred Fits := fun i => inferInstanceAs (Decidable (∀ t ∈ i.target?, _))

/-- A branch that goes further by a number of instructions.  Words are added without a check, so
    behind the last word comes the first one. -/
def shift (n : Nat) : Instr → Instr := retarget fun t => (t + n) % UInt64.size

/-- How many operands an instruction takes off the stack, and how many results it puts there. -/
def effect : Instr → Nat × Nat
  | nop | branch _ => (0, 0)
  | loadInt _ | loadString _ | loadNull | loadLocal _ | loadArguments => (0, 1)
  | storeLocal _ | pop | branchTrue _ | branchFalse _ | ret => (1, 0)
  | box _ | unbox _ | not | neg => (1, 1)
  | loadElement | add | sub | mul | div | and | or | xor => (2, 1)
  | compareEqual | compareLess | compareGreater | concat => (2, 1)
  | storeElement => (3, 0)
  | call r => (r.parameters.length, if r.result = .void then 0 else 1)

/-- An instruction on a slot; the first four slots have short forms. -/
def slotText (name : String) (slot : Nat) : String :=
  if slot ≤ 3 then s!"{name}.{slot}" else s!"{name} {slot}"

/-- The instruction in listings. -/
def text : Instr → String
  | nop => "nop"
  | loadInt n => "ldc.i4 " ++ String.ofList (Text.writeInt n)
  | loadString s => "ldstr " ++ Text.quoted s
  | loadNull => "ldnull"
  | loadLocal slot => slotText "ldloc" slot
  | storeLocal slot => slotText "stloc" slot
  | loadArguments => "ldarg.0"
  | loadElement => "ldelem.ref"
  | storeElement => "stelem.ref"
  | box ty => "box " ++ tyName ty
  | unbox ty => "unbox.any " ++ tyName ty
  | pop => "pop"
  | add => "add"
  | sub => "sub"
  | mul => "mul"
  | div => "div"
  | and => "and"
  | or => "or"
  | xor => "xor"
  | not => "not"
  | neg => "neg"
  | compareEqual => "ceq"
  | compareLess => "clt"
  | compareGreater => "cgt"
  | concat => "concat"
  | branch t => "br " ++ offsetName t
  | branchTrue t => "brtrue " ++ offsetName t
  | branchFalse t => "brfalse " ++ offsetName t
  | call r => "call " ++ r.name
  | ret => "ret"

end Instr

end SnippetLang.Code
