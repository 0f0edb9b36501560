/-!
# Phases of a method frame

A frame goes through these phases in order, skipping some if it likes, and never back.
-/

namespace SnippetLang.Code

/-- How far the construction of a method has come. -/
inductive Phase where
  | empty
  | allocatingSlots
  | emittingCode
  | patchingJumps
  | finalized
deriving DecidableEq

namespace Phase

/-- The place in the order of phases. -/
def rank : Phase → Nat
  | empty => 0
  | allocatingSlots => 1
  | emittingCode => 2
  | patchingJumps => 3
  | finalized => 4

/-- The name in reports. -/
def name : Phase → String
  | empty => "Empty"
  | allocatingSlots => "AllocatingSlots"
  | emittingCode => "EmittingCode"
  | patchingJumps => "PatchingJumps"
  | finalized => "Finalized"

end Phase

end SnippetLang.Code
