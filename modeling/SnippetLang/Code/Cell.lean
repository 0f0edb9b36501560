import SnippetLang.Text.Quoted
import SnippetLang.Value

/-!
# Stack cells

What stands on the stack and in the local slots of a running method.  A cell is untyped: truth
values and numbers share one form, and only an instruction that names a type turns a cell back into
a value.  Boxed cells keep their value whole.
-/

namespace SnippetLang.Code

/-- An entry of the stack or a local slot. -/
inductive Cell where
  | int (n : Int32)        -- a number, or a truth value as 0 or 1
  | string (s : String)
  | boxed (v : Value)
  | null
  | arguments              -- the argument array
deriving DecidableEq

namespace Cell

/-- A value without a box. -/
def ofValue : Value → Cell
  | .bool b => int (if b then 1 else 0)
  | .int n => int n
  | .string s => string s
  | .void => null

/-- The value of a type that a cell without a box holds. -/
def toValue? : Cell → Ty → Option Value
  | int n, .bool => some (.bool (n != 0))
  | int n, .int => some (.int n)
  | string s, .string => some (.string s)
  | _, _ => none

/-- A value taken out of its cell is the value that was put in. -/
theorem toValue?_ofValue {v : Value} (h : v ≠ .void) : (ofValue v).toValue? v.ty = some v := by
  cases v with
  | bool b => cases b <;> rfl
  | int n => rfl
  | string s => rfl
  | void => exact absurd rfl h

/-- A boxed value in reports. -/
def describeValue : Value → String
  | .bool b => "Bool(" ++ (if b then "true" else "false") ++ ")"
  | .int n => "Int(" ++ String.ofList (Text.writeInt n) ++ ")"
  | .string s => "Str(" ++ Text.quoted s ++ ")"
  | .void => "Void"

/-- The cell in reports. -/
def describe : Cell → String
  | int n => "I4(" ++ String.ofList (Text.writeInt n) ++ ")"
  | string s => "Str(" ++ Text.quoted s ++ ")"
  | boxed v => "Ref(" ++ describeValue v ++ ")"
  | null => "Null"
  | arguments => "Args"

end Cell

end SnippetLang.Code
