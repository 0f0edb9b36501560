import SnippetLang.Text.Decimal
import SnippetLang.Ty

/-!
# Values

What an expression evaluates to.  A value knows its type, every type has a default value, and a
variable that was never given a value reads as the default of its type.
-/

namespace SnippetLang

/-- A value of the language. -/
inductive Value where
  | bool (b : Bool)
  | int (n : Int32)
  | string (s : String)
  | void                  -- of an expression without a value
deriving DecidableEq

namespace Value

/-- The type of a value, which is never `Ty.error`. -/
def ty : Value → Ty
  | bool _ => .bool
  | int _ => .int
  | string _ => .string
  | void => .void

/-- The truth value, of a value that is one. -/
def bool? : Value → Option Bool
  | bool b => some b
  | _ => none

/-- The number, of a value that is one. -/
def int? : Value → Option Int32
  | int n => some n
  | _ => none

/-- The text, of a value that is one. -/
def string? : Value → Option String
  | string s => some s
  | _ => none

/-- The value as `print` and the command line show it; the empty value shows as nothing. -/
def text : Value → String
  | bool b => if b then "true" else "false"
  | int n => String.ofList (Text.writeInt n)
  | string s => s
  | void => ""

end Value

/-- The value of a variable of this type that was never given one. -/
def Ty.default : Ty → Value
  | .bool => .bool false
  | .int => .int 0
  | .string => .string ""
  | .error => .void
  | .void => .void

/-- The default of a type that values can have is a value of that type. -/
theorem Ty.ty_default {t : Ty} (h : t ≠ .error) : t.default.ty = t := by
  cases t <;> simp_all [Ty.default, Value.ty]

end SnippetLang
